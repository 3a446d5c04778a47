import SmtServer.Lib.Dag
import SmtServer.Lib.Grow
import SmtServer.Qfbv.Ir

/-!
# `gates.rs` — the arena of gates

Circuits are built from gates that are kept in a table: a gate that is in the table already is not
added again, and the operations simplify as they go (`and` with a constant, double negation, a
multiplexer of one value).

A `GateId` is a `u32`, and `add_raw` makes it from the length of the table with an `as` cast that
**nothing checks** — `Arena::add`, which makes the ids of terms, refuses to grow past `u32::MAX`
nodes. So the id of row `n` is `n % 2 ^ 32` here, and what the gates compute is known only of an
arena that still *fits* (`GateArena.Fits`). The shape of the table does not depend on that: gates
refer to earlier rows in every arena (`Inv`).
-/

namespace SmtServer
namespace Qfbv

open Lib Outcome

abbrev GateId := Nat

inductive GateKind where
  | const (value : Bool)
  | input (id : Nat)
  | not (x : GateId)
  | and (a b : GateId)
  | or (a b : GateId)
  | xor (a b : GateId)
  | mux (sel t f : GateId)
  deriving Repr, DecidableEq

namespace GateKind

def operands : GateKind → List GateId
  | const _ | input _ => []
  | not x => [x]
  | and a b | or a b | xor a b => [a, b]
  | mux sel t f => [sel, t, f]

/-- The value of a gate, given those of the input gates and of its operands. -/
def eval (inputs : Nat → Bool) (look : GateId → Bool) : GateKind → Bool
  | const value => value
  | input id => inputs id
  | not x => !look x
  | and a b => look a && look b
  | or a b => look a || look b
  | xor a b => look a ^^ look b
  | mux sel t f => if look sel then look t else look f

theorem eval_congr {inputs : Nat → Bool} {look look' : GateId → Bool} {k : GateKind}
    (h : ∀ x ∈ k.operands, look x = look' x) : k.eval inputs look = k.eval inputs look' := by
  cases k <;> simp_all [operands, eval]

end GateKind

/-- `ids` is the table read backwards: the id of a kind is that of its row. -/
structure GateArena where
  gates : List GateKind
  inputCount : Nat

/-- An arena is extended by appending gates. -/
instance : Preorder GateArena where
  le s t := s.gates <+: t.gates ∧ s.inputCount ≤ t.inputCount
  le_refl s := ⟨List.prefix_refl s.gates, le_refl _⟩
  le_trans _ _ _ h₁ h₂ := ⟨h₁.1.trans h₂.1, h₁.2.trans h₂.2⟩

/-- A computation that may add gates. -/
abbrev GateM := Grow GateArena Error

namespace GateArena

/-- `false_id` and `true_id` are set once, by `new`, to the ids of its two rows. -/
def falseGate : GateId := 0

def trueGate : GateId := 1

def new : GateArena := ⟨[.const false, .const true], 0⟩

def addRaw (kind : GateKind) : GateM GateId where
  run s :=
    match s.gates.findIdx? (· = kind) with
    | some existing => (.ok (existing % 2 ^ 32), s)
    | none => (.ok (s.gates.length % 2 ^ 32), { s with gates := s.gates ++ [kind] })
  grows s := by
    split
    · exact le_refl s
    · exact ⟨List.prefix_append _ _, le_refl _⟩

/-- `self.gates[x.index()]`. -/
def gate (x : GateId) : GateM GateKind := Grow.read fun s => expect s.gates[x]?

/-- The counter is a `u32`, and `+= 1` may overflow. -/
def input : GateM GateId := do
  let id ← Grow.read fun s => (.ok s.inputCount : Result Nat)
  let _ ← Grow.lift (addU 32 id 1)
  Grow.modify (fun s => { s with inputCount := s.inputCount + 1 })
    fun s => ⟨List.prefix_refl s.gates, Nat.le_succ _⟩
  addRaw (.input id)

def constGate (value : Bool) : GateId := if value then trueGate else falseGate

def not (x : GateId) : GateM GateId :=
  if x = falseGate then pure trueGate
  else if x = trueGate then pure falseGate
  else do
    match ← gate x with
    | .not inner => pure inner
    | _ => addRaw (.not x)

def orderPair (a b : GateId) : GateId × GateId := if a ≤ b then (a, b) else (b, a)

/-- The second row is read where the first is not the negation. -/
def isNegationPair (a b : GateId) : GateM Bool := do
  if (← gate a) = .not b then pure true
  else return (← gate b) = .not a

/-- `and`, `or` and `xor` put their operands in order before they look at them. -/
def andOrdered (a b : GateId) : GateM GateId :=
  if a = falseGate ∨ b = falseGate then pure falseGate
  else if a = trueGate then pure b
  else if b = trueGate ∨ a = b then pure a
  else do
    if ← isNegationPair a b then pure falseGate else addRaw (.and a b)

def and (a b : GateId) : GateM GateId :=
  let (a, b) := orderPair a b
  andOrdered a b

def orOrdered (a b : GateId) : GateM GateId :=
  if a = trueGate ∨ b = trueGate then pure trueGate
  else if a = falseGate then pure b
  else if b = falseGate ∨ a = b then pure a
  else do
    if ← isNegationPair a b then pure trueGate else addRaw (.or a b)

def or (a b : GateId) : GateM GateId :=
  let (a, b) := orderPair a b
  orOrdered a b

def xorOrdered (a b : GateId) : GateM GateId :=
  if a = falseGate then pure b
  else if b = falseGate then pure a
  else if a = b then pure falseGate
  else if a = trueGate then not b
  else if b = trueGate then not a
  else addRaw (.xor a b)

def xor (a b : GateId) : GateM GateId :=
  let (a, b) := orderPair a b
  xorOrdered a b

def xnor (a b : GateId) : GateM GateId := do
  let xor ← xor a b
  not xor

def mux (sel t f : GateId) : GateM GateId :=
  if sel = trueGate then pure t
  else if sel = falseGate then pure f
  else if t = f then pure t
  else if t = trueGate ∧ f = falseGate then pure sel
  else if t = falseGate ∧ f = trueGate then not sel
  else addRaw (.mux sel t f)

def implies (a b : GateId) : GateM GateId := do
  let notA ← not a
  or notA b

/-- The loop of `and_many`, from `out` on; it breaks off at the constant false. -/
def andManyFrom : GateId → List GateId → GateM GateId
  | out, [] => pure out
  | out, gate :: rest => do
    let out ← and out gate
    if out = falseGate then pure out else andManyFrom out rest

def andMany (gates : List GateId) : GateM GateId := andManyFrom trueGate gates

def orManyFrom : GateId → List GateId → GateM GateId
  | out, [] => pure out
  | out, gate :: rest => do
    let out ← or out gate
    if out = trueGate then pure out else orManyFrom out rest

def orMany (gates : List GateId) : GateM GateId := orManyFrom falseGate gates

/-! ## What a gate computes -/

/-- The value of a gate for given inputs; the table is evaluated row by row. -/
def value (s : GateArena) (inputs : Nat → Bool) (g : GateId) : Bool :=
  Dag.value (fun _ kind look => kind.eval inputs look) false s.gates g

/-- Every row has an id of its own. -/
def Fits (s : GateArena) : Prop := s.gates.length ≤ 2 ^ 32

/-- The representation invariant, which does not depend on the number of gates. -/
structure Inv (s : GateArena) : Prop where
  ordered : Dag.Ordered GateKind.operands s.gates
  false_get : s.gates[0]? = some (.const false)
  true_get : s.gates[1]? = some (.const true)
  nodup : s.gates.Nodup
  input_lt : ∀ id, .input id ∈ s.gates → id < s.inputCount
  inputCount_le : s.inputCount + 2 ≤ s.gates.length

/-- The gate is one of the arena, and as long as the arena fits it computes the value. -/
def Computes (s : GateArena) (inputs : Nat → Bool) (g : GateId) (b : Bool) : Prop :=
  g < s.gates.length ∧ (s.Fits → s.value inputs g = b)

variable {s s' : GateArena} {inputs : Nat → Bool} {g x a b : GateId} {k : GateKind}
  {p q r : Bool} {α β : Type}

theorem Fits.of_le (h : s ≤ s') (hf : s'.Fits) : s.Fits := h.1.length_le.trans hf

theorem local_eval : Dag.Local (fun _ (kind : GateKind) look => kind.eval inputs look)
    GateKind.operands := fun _ _ _ _ h => GateKind.eval_congr h

theorem value_of_get (hs : s.Inv) (h : s.gates[g]? = some k) :
    s.value inputs g = k.eval inputs (s.value inputs) :=
  Dag.value_eq local_eval hs.ordered h

theorem value_mono (h : s ≤ s') (hg : g < s.gates.length) :
    s'.value inputs g = s.value inputs g :=
  Dag.value_extend h.1 hg

theorem Computes.mono (h : s.Computes inputs g p) (hle : s ≤ s') : s'.Computes inputs g p :=
  ⟨h.1.trans_le hle.1.length_le, fun hf => (value_mono hle h.1).trans (h.2 (hf.of_le hle))⟩

theorem Computes.congr (h : s.Computes inputs g p) (hpq : s.Fits → p = q) :
    s.Computes inputs g q :=
  ⟨h.1, fun hf => (h.2 hf).trans (hpq hf)⟩

theorem Computes.unique (h : s.Computes inputs g p) (h' : s.Computes inputs g q) (hf : s.Fits) :
    p = q :=
  (h.2 hf).symm.trans (h'.2 hf)

theorem inv_new : Inv new where
  ordered := by
    intro i k h
    match i with
    | 0 => cases h; simp [GateKind.operands]
    | 1 => cases h; simp [GateKind.operands]
    | i + 2 => simp [new] at h
  false_get := rfl
  true_get := rfl
  nodup := by decide
  input_lt := by simp [new]
  inputCount_le := by simp [new]

namespace Inv

theorem operand_lt (hs : s.Inv) (h : s.gates[g]? = some k) (hx : x ∈ k.operands) :
    x < s.gates.length :=
  (hs.ordered g k h x hx).trans (List.getElem?_eq_some_iff.mp h).1

theorem computes_get (hs : s.Inv) (h : s.gates[g]? = some k) :
    s.Computes inputs g (k.eval inputs (s.value inputs)) :=
  ⟨(List.getElem?_eq_some_iff.mp h).1, fun _ => value_of_get hs h⟩

theorem computes_false (hs : s.Inv) : s.Computes inputs falseGate false :=
  hs.computes_get hs.false_get

theorem computes_true (hs : s.Inv) : s.Computes inputs trueGate true :=
  hs.computes_get hs.true_get

theorem computes_const (hs : s.Inv) (p : Bool) : s.Computes inputs (constGate p) p := by
  cases p with
  | false => exact hs.computes_false
  | true => exact hs.computes_true

/-- Appending a gate on earlier rows that is not there yet. -/
theorem snoc (hs : s.Inv) (hk : ∀ x ∈ k.operands, x < s.gates.length) (hnew : k ∉ s.gates)
    {count : Nat} (hcount : s.inputCount ≤ count) (hle : count ≤ s.inputCount + 1)
    (hinput : ∀ id, k = .input id → id < count) : Inv ⟨s.gates ++ [k], count⟩ where
  ordered := hs.ordered.snoc hk
  false_get := by
    have := hs.inputCount_le
    rw [List.getElem?_append_left (by omega), hs.false_get]
  true_get := by
    have := hs.inputCount_le
    rw [List.getElem?_append_left (by omega), hs.true_get]
  nodup := by
    rw [List.nodup_append]
    refine ⟨hs.nodup, by simp, fun c hc d hd => ?_⟩
    rw [List.mem_singleton.mp hd]
    rintro rfl
    exact hnew hc
  input_lt id hid := by
    rcases List.mem_append.mp hid with hid | hid
    · exact (hs.input_lt id hid).trans_le hcount
    · exact hinput id (List.mem_singleton.mp hid).symm
  inputCount_le := by
    have := hs.inputCount_le
    simp only [List.length_append, List.length_singleton]
    omega

end Inv

/-! ## Specifications

From an arena with the invariant an operation on gates of the arena returns, keeps the invariant,
and leaves an arena of which `Q` holds. The one operation that may panic is `input`. -/

def Spec (m : GateM α) (s : GateArena) (Q : α → GateArena → Prop) : Prop :=
  Grow.Spec (fun _ => True) Inv (fun _ _ => False) m s Q

theorem Spec.bind {m : GateM α} {f : α → GateM β} {P : α → GateArena → Prop}
    {Q : β → GateArena → Prop} (hm : Spec m s P)
    (hf : ∀ a s', s ≤ s' → s'.Inv → P a s' → Spec (f a) s' Q) : Spec (m >>= f) s Q := by
  refine Grow.Spec.bind (fun _ _ => trivial) hm ?_
  intro a s' hle hp hs'
  exact hf a s' hle hs' hp hs'

theorem spec_pure {a : α} {Q : α → GateArena → Prop} (h : s.Inv → Q a s) :
    Spec (pure a : GateM α) s Q := by
  intro hs
  exact Grow.spec_pure (h hs) hs

theorem Spec.mono {m : GateM α} {P Q : α → GateArena → Prop} (h : Spec m s P)
    (hpq : ∀ a s', s ≤ s' → s'.Inv → P a s' → Q a s') : Spec m s Q :=
  Grow.Spec.mono h hpq

theorem spec_inv {m : GateM α} {Q : α → GateArena → Prop} (h : s.Inv → Spec m s Q) :
    Spec m s Q := fun hs => h hs hs

/-- Read a specification back: the operation returns. -/
theorem Spec.run {m : GateM α} {Q : α → GateArena → Prop} (h : Spec m s Q) (hs : s.Inv) :
    ∃ a s', m.run s = (ok a, s') ∧ s ≤ s' ∧ s'.Inv ∧ Q a s' := by
  have hw := h hs trivial
  have hle := m.grows s
  revert hw hle
  cases m.run s with
  | mk o s' =>
    cases o with
    | ok a => exact fun hw hle => ⟨a, s', rfl, hle, hw.1, hw.2⟩
    | err e => exact fun hw _ => hw.1.elim
    | panic => exact fun hw _ => hw.elim

/-- A specification for all inputs: what the operation returns does not depend on them. -/
theorem Spec.run_all {m : GateM α} {Q : (Nat → Bool) → α → GateArena → Prop}
    (h : ∀ inputs, Spec m s (Q inputs)) (hs : s.Inv) :
    ∃ a s', m.run s = (ok a, s') ∧ s ≤ s' ∧ s'.Inv ∧ ∀ inputs, Q inputs a s' := by
  obtain ⟨a, s', hrun, hle, hs', -⟩ := (h fun _ => false).run hs
  refine ⟨a, s', hrun, hle, hs', fun inputs => ?_⟩
  obtain ⟨b, t, hrun', -, -, hq⟩ := (h inputs).run hs
  rw [hrun, Prod.mk.injEq] at hrun'
  exact Outcome.ok.inj hrun'.1 ▸ hrun'.2 ▸ hq

theorem spec_gate {f : GateKind → GateM α} {Q : α → GateArena → Prop} (h : s.gates[x]? = some k)
    (hf : Spec (f k) s Q) : Spec (gate x >>= f) s Q := by
  refine Grow.spec_read (by simp [h]) (by simp [h]) fun a ha => ?_
  rw [h, expect_some] at ha
  exact Outcome.ok.inj ha ▸ hf

/-- A gate that is not there yet gets the next row. -/
theorem addRaw_run (h : k ∉ s.gates) :
    (addRaw k).run s = (ok (s.gates.length % 2 ^ 32), ⟨s.gates ++ [k], s.inputCount⟩) := by
  have hfind : s.gates.findIdx? (· = k) = none := by
    rw [List.findIdx?_eq_none_iff]
    intro c hc
    simpa using fun hck : c = k => h (hck ▸ hc)
  simp only [addRaw, hfind]

/-- The row of the gate that `add_raw` returns. -/
theorem addRaw_row (hs : s.Inv) (hk : ∀ x ∈ k.operands, x < s.gates.length)
    (hin : ∀ id, k = .input id → id < s.inputCount) :
    ∃ row s', (addRaw k).run s = (ok (row % 2 ^ 32), s') ∧ s ≤ s' ∧ s'.Inv ∧
      s'.gates[row]? = some k := by
  cases hfind : s.gates.findIdx? (· = k) with
  | some row =>
    refine ⟨row, s, by simp only [addRaw, hfind], le_refl s, hs, ?_⟩
    obtain ⟨hlt, hp, -⟩ := List.findIdx?_eq_some_iff_getElem.mp hfind
    rw [List.getElem?_eq_getElem hlt, Option.some.injEq]
    simpa using hp
  | none =>
    have hnew : k ∉ s.gates := by
      intro hmem
      simpa using List.findIdx?_eq_none_iff.mp hfind _ hmem
    refine ⟨s.gates.length, ⟨s.gates ++ [k], s.inputCount⟩, by simp only [addRaw, hfind],
      ⟨List.prefix_append _ _, le_refl _⟩, hs.snoc hk hnew (le_refl _) (Nat.le_succ _) hin, ?_⟩
    simp

/-- A row's id is the row, as long as the arena fits. -/
theorem computes_row (hs : s.Inv) {row : Nat} (h : s.gates[row]? = some k) :
    s.Computes inputs (row % 2 ^ 32) (k.eval inputs (s.value inputs)) := by
  have hlt := (List.getElem?_eq_some_iff.mp h).1
  refine ⟨(Nat.mod_le _ _).trans_lt hlt, fun hf => ?_⟩
  rw [Nat.mod_eq_of_lt (hlt.trans_le hf), value_of_get hs h]

theorem addRaw_spec (inputs : Nat → Bool) (hk : ∀ x ∈ k.operands, x < s.gates.length)
    (hin : ∀ id, k = .input id → id < s.inputCount) :
    Spec (addRaw k) s fun g s' => s'.Computes inputs g (k.eval inputs (s.value inputs)) := by
  intro hs
  obtain ⟨row, s', hrun, hle, hs', hrow⟩ := addRaw_row hs hk hin
  refine Grow.wp_of_run hrun fun _ => ⟨hs', (computes_row hs' hrow).congr fun _ => ?_⟩
  exact GateKind.eval_congr fun x hx => value_mono hle (hk x hx)

/-! ## The operations -/

section Operations

variable (hx : s.Computes inputs x p) (ha : s.Computes inputs a p) (hb : s.Computes inputs b q)
  (hg : s.Computes inputs g r)

include hx in
theorem not_spec : Spec (not x) s fun g s' => s'.Computes inputs g (!p) := by
  refine spec_inv fun hs => ?_
  rw [not]
  by_cases hfalse : x = falseGate
  · rw [if_pos hfalse]
    subst hfalse
    refine spec_pure fun _ => hs.computes_true.congr fun hf => ?_
    rw [hx.unique hs.computes_false hf]
    rfl
  rw [if_neg hfalse]
  by_cases htrue : x = trueGate
  · rw [if_pos htrue]
    subst htrue
    refine spec_pure fun _ => hs.computes_false.congr fun hf => ?_
    rw [hx.unique hs.computes_true hf]
    rfl
  rw [if_neg htrue]
  obtain ⟨k, hk⟩ : ∃ k, s.gates[x]? = some k := ⟨_, List.getElem?_eq_getElem hx.1⟩
  have hadd : Spec (addRaw (.not x)) s fun g s' => s'.Computes inputs g (!p) := by
    refine (addRaw_spec inputs (by simpa [GateKind.operands] using hx.1)
      (by simp)).mono fun g s' hle _ h => ?_
    refine h.congr fun hf => ?_
    rw [GateKind.eval, hx.2 (hf.of_le hle)]
  refine spec_gate hk ?_
  cases k with
  | not inner =>
    refine spec_pure fun _ => ⟨hs.operand_lt hk (by simp [GateKind.operands]), fun hf => ?_⟩
    rw [← hx.2 hf, value_of_get hs hk, GateKind.eval, Bool.not_not]
  | _ => exact hadd

theorem value_negation (hs : s.Inv) (h : s.gates[a]? = some (.not b)) :
    s.value inputs a = !s.value inputs b := value_of_get hs h

include ha hb

theorem isNegationPair_spec : Spec (isNegationPair a b) s fun found s' =>
    found = true → s'.Fits → p = !q := by
  refine spec_inv fun hs => ?_
  obtain ⟨k, hk⟩ : ∃ k, s.gates[a]? = some k := ⟨_, List.getElem?_eq_getElem ha.1⟩
  obtain ⟨l, hl⟩ : ∃ l, s.gates[b]? = some l := ⟨_, List.getElem?_eq_getElem hb.1⟩
  rw [isNegationPair]
  refine spec_gate hk ?_
  by_cases hnot : k = .not b
  · rw [if_pos hnot]
    refine spec_pure fun _ _ hf => ?_
    rw [← ha.2 hf, ← hb.2 hf, value_negation hs (hnot ▸ hk)]
  · rw [if_neg hnot]
    refine spec_gate hl (spec_pure fun _ htrue hf => ?_)
    have hneg : s.value inputs b = !s.value inputs a :=
      value_negation hs (of_decide_eq_true htrue ▸ hl)
    rw [← ha.2 hf, ← hb.2 hf, hneg, Bool.not_not]

/-- A gate on two operands. -/
theorem addRaw_pair_spec {op : Bool → Bool → Bool} {k : GateKind} (hk : k.operands = [a, b])
    (heval : ∀ look : GateId → Bool, k.eval inputs look = op (look a) (look b)) :
    Spec (addRaw k) s fun g s' => s'.Computes inputs g (op p q) := by
  have hin : ∀ id, k = .input id → id < s.inputCount := by
    rintro id rfl
    cases hk
  refine (addRaw_spec inputs (by simp [hk, ha.1, hb.1]) hin).mono
    fun g s' hle _ h => h.congr fun hf => ?_
  rw [heval, ha.2 (hf.of_le hle), hb.2 (hf.of_le hle)]

/-- The two operands are one gate. -/
theorem Computes.same (hab : a = b) (hf : s.Fits) : p = q := ha.unique (hab ▸ hb) hf

theorem andOrdered_spec : Spec (andOrdered a b) s fun g s' => s'.Computes inputs g (p && q) := by
  refine spec_inv fun hs => ?_
  rw [andOrdered]
  by_cases hfalse : a = falseGate ∨ b = falseGate
  · rw [if_pos hfalse]
    refine spec_pure fun _ => hs.computes_false.congr fun hf => ?_
    rcases hfalse with rfl | rfl
    · rw [ha.unique hs.computes_false hf, Bool.false_and]
    · rw [hb.unique hs.computes_false hf, Bool.and_false]
  rw [if_neg hfalse]
  by_cases htrue : a = trueGate
  · rw [if_pos htrue]
    subst htrue
    refine spec_pure fun _ => hb.congr fun hf => ?_
    rw [ha.unique hs.computes_true hf, Bool.true_and]
  rw [if_neg htrue]
  by_cases hsame : b = trueGate ∨ a = b
  · rw [if_pos hsame]
    refine spec_pure fun _ => ha.congr fun hf => ?_
    rcases hsame with rfl | hab
    · rw [hb.unique hs.computes_true hf, Bool.and_true]
    · rw [ha.same hb hab hf, Bool.and_self]
  rw [if_neg hsame]
  refine (isNegationPair_spec ha hb).bind fun found s' hle hs' hfound => ?_
  cases found with
  | true =>
    refine spec_pure fun _ => hs'.computes_false.congr fun hf => ?_
    rw [hfound rfl hf, Bool.not_and_self]
  | false => exact addRaw_pair_spec (ha.mono hle) (hb.mono hle) rfl fun _ => rfl

theorem orOrdered_spec : Spec (orOrdered a b) s fun g s' => s'.Computes inputs g (p || q) := by
  refine spec_inv fun hs => ?_
  rw [orOrdered]
  by_cases htrue : a = trueGate ∨ b = trueGate
  · rw [if_pos htrue]
    refine spec_pure fun _ => hs.computes_true.congr fun hf => ?_
    rcases htrue with rfl | rfl
    · rw [ha.unique hs.computes_true hf, Bool.true_or]
    · rw [hb.unique hs.computes_true hf, Bool.or_true]
  rw [if_neg htrue]
  by_cases hfalse : a = falseGate
  · rw [if_pos hfalse]
    subst hfalse
    refine spec_pure fun _ => hb.congr fun hf => ?_
    rw [ha.unique hs.computes_false hf, Bool.false_or]
  rw [if_neg hfalse]
  by_cases hsame : b = falseGate ∨ a = b
  · rw [if_pos hsame]
    refine spec_pure fun _ => ha.congr fun hf => ?_
    rcases hsame with rfl | hab
    · rw [hb.unique hs.computes_false hf, Bool.or_false]
    · rw [ha.same hb hab hf, Bool.or_self]
  rw [if_neg hsame]
  refine (isNegationPair_spec ha hb).bind fun found s' hle hs' hfound => ?_
  cases found with
  | true =>
    refine spec_pure fun _ => hs'.computes_true.congr fun hf => ?_
    rw [hfound rfl hf, Bool.not_or_self]
  | false => exact addRaw_pair_spec (ha.mono hle) (hb.mono hle) rfl fun _ => rfl

theorem xorOrdered_spec : Spec (xorOrdered a b) s fun g s' => s'.Computes inputs g (p ^^ q) := by
  refine spec_inv fun hs => ?_
  rw [xorOrdered]
  by_cases hfalse : a = falseGate
  · rw [if_pos hfalse]
    subst hfalse
    refine spec_pure fun _ => hb.congr fun hf => ?_
    rw [ha.unique hs.computes_false hf, Bool.false_xor]
  rw [if_neg hfalse]
  by_cases hfalse : b = falseGate
  · rw [if_pos hfalse]
    subst hfalse
    refine spec_pure fun _ => ha.congr fun hf => ?_
    rw [hb.unique hs.computes_false hf, Bool.xor_false]
  rw [if_neg hfalse]
  by_cases hab : a = b
  · rw [if_pos hab]
    refine spec_pure fun _ => hs.computes_false.congr fun hf => ?_
    rw [ha.same hb hab hf, Bool.xor_self]
  rw [if_neg hab]
  by_cases htrue : a = trueGate
  · rw [if_pos htrue]
    subst htrue
    refine (not_spec hb).mono fun g s' hle _ h => h.congr fun hf => ?_
    rw [ha.unique hs.computes_true (hf.of_le hle), Bool.true_xor]
  rw [if_neg htrue]
  by_cases htrue : b = trueGate
  · rw [if_pos htrue]
    subst htrue
    refine (not_spec ha).mono fun g s' hle _ h => h.congr fun hf => ?_
    rw [hb.unique hs.computes_true (hf.of_le hle), Bool.xor_true]
  rw [if_neg htrue]
  exact addRaw_pair_spec ha hb rfl fun _ => rfl

omit ha hb in
theorem orderPair_cases (a b : GateId) : orderPair a b = (a, b) ∨ orderPair a b = (b, a) := by
  unfold orderPair
  split
  · exact .inl rfl
  · exact .inr rfl

theorem and_spec : Spec (and a b) s fun g s' => s'.Computes inputs g (p && q) := by
  rcases orderPair_cases a b with h | h <;> rw [and, h]
  · exact andOrdered_spec ha hb
  · exact Bool.and_comm p q ▸ andOrdered_spec hb ha

theorem or_spec : Spec (or a b) s fun g s' => s'.Computes inputs g (p || q) := by
  rcases orderPair_cases a b with h | h <;> rw [or, h]
  · exact orOrdered_spec ha hb
  · exact Bool.or_comm p q ▸ orOrdered_spec hb ha

theorem xor_spec : Spec (xor a b) s fun g s' => s'.Computes inputs g (p ^^ q) := by
  rcases orderPair_cases a b with h | h <;> rw [xor, h]
  · exact xorOrdered_spec ha hb
  · exact Bool.xor_comm p q ▸ xorOrdered_spec hb ha

theorem xnor_spec : Spec (xnor a b) s fun g s' => s'.Computes inputs g (p == q) := by
  refine (xor_spec ha hb).bind fun g s' _ _ h => ?_
  refine (not_spec h).mono fun g s' _ _ h => h.congr fun _ => ?_
  cases p <;> cases q <;> rfl

theorem implies_spec : Spec (implies a b) s fun g s' => s'.Computes inputs g (!p || q) := by
  refine (not_spec ha).bind fun g s' hle _ h => ?_
  exact or_spec h (hb.mono hle)

include hg

/-- `mux` of `g`, `a` and `b`. -/
theorem mux_spec : Spec (mux g a b) s fun g s' => s'.Computes inputs g (if r then p else q) := by
  refine spec_inv fun hs => ?_
  rw [mux]
  by_cases htrue : g = trueGate
  · rw [if_pos htrue]
    subst htrue
    refine spec_pure fun _ => ha.congr fun hf => ?_
    rw [hg.unique hs.computes_true hf, if_pos rfl]
  rw [if_neg htrue]
  by_cases hfalse : g = falseGate
  · rw [if_pos hfalse]
    subst hfalse
    refine spec_pure fun _ => hb.congr fun hf => ?_
    rw [hg.unique hs.computes_false hf]
    rfl
  rw [if_neg hfalse]
  by_cases hab : a = b
  · rw [if_pos hab]
    refine spec_pure fun _ => ha.congr fun hf => ?_
    rw [ha.same hb hab hf, ite_self]
  rw [if_neg hab]
  by_cases hsel : a = trueGate ∧ b = falseGate
  · rw [if_pos hsel]
    obtain ⟨rfl, rfl⟩ := hsel
    refine spec_pure fun _ => hg.congr fun hf => ?_
    rw [ha.unique hs.computes_true hf, hb.unique hs.computes_false hf]
    cases r <;> rfl
  rw [if_neg hsel]
  by_cases hnot : a = falseGate ∧ b = trueGate
  · rw [if_pos hnot]
    obtain ⟨rfl, rfl⟩ := hnot
    refine (not_spec hg).mono fun g s' hle _ h => h.congr fun hf => ?_
    rw [ha.unique hs.computes_false (hf.of_le hle), hb.unique hs.computes_true (hf.of_le hle)]
    cases r <;> rfl
  rw [if_neg hnot]
  refine (addRaw_spec inputs ?_ (by simp)).mono fun g s' hle _ h => h.congr fun hf => ?_
  · simp [GateKind.operands, hg.1, ha.1, hb.1]
  · rw [GateKind.eval, hg.2 (hf.of_le hle), ha.2 (hf.of_le hle), hb.2 (hf.of_le hle)]

end Operations

/-- Gates that compute the values of a list. -/
def ComputesAll (s : GateArena) (inputs : Nat → Bool) (gs : List GateId) (ps : List Bool) : Prop :=
  List.Forall₂ (s.Computes inputs) gs ps

theorem ComputesAll.mono {gs : List GateId} {ps : List Bool} (h : s.ComputesAll inputs gs ps)
    (hle : s ≤ s') : s'.ComputesAll inputs gs ps :=
  h.imp fun _ _ hg => hg.mono hle

theorem andManyFrom_spec {gs : List GateId} {ps : List Bool} (hg : s.Computes inputs g p)
    (h : s.ComputesAll inputs gs ps) :
    Spec (andManyFrom g gs) s fun g s' => s'.Computes inputs g (p && ps.all id) := by
  induction gs generalizing s g p ps with
  | nil =>
    cases h
    exact spec_pure fun _ => hg.congr fun _ => by simp
  | cons gate gs ih =>
    obtain ⟨q, ps, hgate, hrest, rfl⟩ := List.forall₂_cons_left_iff.mp h
    rw [andManyFrom]
    refine (and_spec hg hgate).bind fun out s' hle hs' hout => ?_
    rw [List.all_cons, ← Bool.and_assoc]
    by_cases hfalse : out = falseGate
    · rw [if_pos hfalse]
      refine spec_pure fun _ => hout.congr fun hf => ?_
      have : (p && q) = false := hout.unique (hfalse ▸ hs'.computes_false) hf
      rw [id, this, Bool.false_and]
    · rw [if_neg hfalse]
      exact ih hout (ComputesAll.mono hrest hle)

theorem andMany_spec {gs : List GateId} {ps : List Bool} (h : s.ComputesAll inputs gs ps) :
    Spec (andMany gs) s fun g s' => s'.Computes inputs g (ps.all id) := by
  refine spec_inv fun hs => ?_
  exact (andManyFrom_spec hs.computes_true h).mono fun _ _ _ _ h => h.congr fun _ => Bool.true_and _

theorem orManyFrom_spec {gs : List GateId} {ps : List Bool} (hg : s.Computes inputs g p)
    (h : s.ComputesAll inputs gs ps) :
    Spec (orManyFrom g gs) s fun g s' => s'.Computes inputs g (p || ps.any id) := by
  induction gs generalizing s g p ps with
  | nil =>
    cases h
    exact spec_pure fun _ => hg.congr fun _ => by simp
  | cons gate gs ih =>
    obtain ⟨q, ps, hgate, hrest, rfl⟩ := List.forall₂_cons_left_iff.mp h
    rw [orManyFrom]
    refine (or_spec hg hgate).bind fun out s' hle hs' hout => ?_
    rw [List.any_cons, ← Bool.or_assoc]
    by_cases htrue : out = trueGate
    · rw [if_pos htrue]
      refine spec_pure fun _ => hout.congr fun hf => ?_
      have : (p || q) = true := hout.unique (htrue ▸ hs'.computes_true) hf
      rw [id, this, Bool.true_or]
    · rw [if_neg htrue]
      exact ih hout (ComputesAll.mono hrest hle)

theorem orMany_spec {gs : List GateId} {ps : List Bool} (h : s.ComputesAll inputs gs ps) :
    Spec (orMany gs) s fun g s' => s'.Computes inputs g (ps.any id) := by
  refine spec_inv fun hs => ?_
  exact (orManyFrom_spec hs.computes_false h).mono
    fun _ _ _ _ h => h.congr fun _ => Bool.false_or _

/-! ## Every arena -/

/-- The operations that add gates. -/
inductive Op where
  | input
  | not (x : GateId)
  | and (a b : GateId)
  | or (a b : GateId)
  | xor (a b : GateId)
  | xnor (a b : GateId)
  | mux (sel t f : GateId)
  | implies (a b : GateId)
  | andMany (gates : List GateId)
  | orMany (gates : List GateId)

namespace Op

def run : Op → GateM GateId
  | input => GateArena.input
  | not x => GateArena.not x
  | and a b => GateArena.and a b
  | or a b => GateArena.or a b
  | xor a b => GateArena.xor a b
  | xnor a b => GateArena.xnor a b
  | mux sel t f => GateArena.mux sel t f
  | implies a b => GateArena.implies a b
  | andMany gates => GateArena.andMany gates
  | orMany gates => GateArena.orMany gates

def arguments : Op → List GateId
  | input => []
  | not x => [x]
  | and a b | or a b | xor a b | xnor a b | implies a b => [a, b]
  | mux sel t f => [sel, t, f]
  | andMany gates | orMany gates => gates

end Op

/-- An arena built by its operations: each was given gates of the arena and returned. -/
inductive Built : GateArena → Prop where
  | new : Built new
  | step {s s' : GateArena} (op : Op) {g : GateId} (hs : Built s)
      (hargs : ∀ x ∈ op.arguments, x < s.gates.length) (hrun : op.run.run s = (ok g, s')) :
      Built s'

/-- Some value is computed by every gate of the arena. -/
theorem Inv.computes_self (hx : x < s.gates.length) :
    s.Computes inputs x (s.value inputs x) := ⟨hx, fun _ => rfl⟩

/-- What an operation other than `input` computes of its arguments. -/
def Op.meaning (look : GateId → Bool) : Op → Bool
  | .input => false
  | .not x => !look x
  | .and a b => look a && look b
  | .or a b => look a || look b
  | .xor a b => look a ^^ look b
  | .xnor a b => look a == look b
  | .mux sel t f => if look sel then look t else look f
  | .implies a b => !look a || look b
  | .andMany gates => (gates.map look).all id
  | .orMany gates => (gates.map look).any id

theorem computesAll_self {gs : List GateId} (h : ∀ x ∈ gs, x < s.gates.length) :
    s.ComputesAll inputs gs (gs.map (s.value inputs)) := by
  rw [ComputesAll, List.forall₂_map_right_iff, List.forall₂_same]
  exact fun x hx => Inv.computes_self (h x hx)

/-- **Gate construction preserves meaning.** -/
theorem Op.spec (inputs : Nat → Bool) {op : Op} (hop : op ≠ .input)
    (hargs : ∀ x ∈ op.arguments, x < s.gates.length) :
    Spec op.run s fun g s' => s'.Computes inputs g (op.meaning (s.value inputs)) := by
  have hself : ∀ x ∈ op.arguments, s.Computes inputs x (s.value inputs x) :=
    fun x hx => Inv.computes_self (hargs x hx)
  cases op with
  | input => exact absurd rfl hop
  | not x => exact not_spec (hself x (by simp [arguments]))
  | and a b => exact and_spec (hself a (by simp [arguments])) (hself b (by simp [arguments]))
  | or a b => exact or_spec (hself a (by simp [arguments])) (hself b (by simp [arguments]))
  | xor a b => exact xor_spec (hself a (by simp [arguments])) (hself b (by simp [arguments]))
  | xnor a b => exact xnor_spec (hself a (by simp [arguments])) (hself b (by simp [arguments]))
  | mux sel t f =>
    exact mux_spec (hself t (by simp [arguments])) (hself f (by simp [arguments]))
      (hself sel (by simp [arguments]))
  | implies a b =>
    exact implies_spec (hself a (by simp [arguments])) (hself b (by simp [arguments]))
  | andMany gates => exact andMany_spec (computesAll_self hargs)
  | orMany gates => exact orMany_spec (computesAll_self hargs)

/-- What `input` does: a fresh input gate, or a panic because the counter is used up. -/
theorem input_run (hs : s.Inv) :
    (s.inputCount + 1 < 2 ^ 32 ∧ input.run s = (ok (s.gates.length % 2 ^ 32),
        ⟨s.gates ++ [.input s.inputCount], s.inputCount + 1⟩)) ∨
      (2 ^ 32 ≤ s.inputCount + 1 ∧ input.run s = (panic, s)) := by
  have hnew : GateKind.input s.inputCount ∉ s.gates := fun h => lt_irrefl _ (hs.input_lt _ h)
  have hfind : s.gates.findIdx? (· = GateKind.input s.inputCount) = none := by
    rw [List.findIdx?_eq_none_iff]
    intro k hk
    have : k ≠ GateKind.input s.inputCount := fun h => hnew (h ▸ hk)
    simpa using this
  by_cases h : s.inputCount + 1 < 2 ^ 32
  · refine .inl ⟨h, ?_⟩
    simp only [input, Grow.run_bind, Grow.run_read, Grow.lift, addU_of_lt h, Grow.modify, addRaw,
      hfind]
  · refine .inr ⟨by omega, ?_⟩
    simp only [input, Grow.run_bind, Grow.run_read, Grow.lift, addU, if_neg h]

theorem Inv.input (hs : s.Inv) :
    Inv ⟨s.gates ++ [.input s.inputCount], s.inputCount + 1⟩ :=
  hs.snoc (by simp [GateKind.operands]) (fun h => lt_irrefl _ (hs.input_lt _ h)) (Nat.le_succ _)
    (le_refl _) (by simp)

/-- The invariant holds of every arena. -/
theorem Built.inv (h : Built s) : s.Inv := by
  induction h with
  | new => exact inv_new
  | @step s s' op g _ hargs hrun ih =>
    by_cases hop : op = .input
    · subst hop
      rcases input_run ih with ⟨-, heq⟩ | ⟨-, heq⟩
      · rw [Op.run, heq, Prod.mk.injEq] at hrun
        exact hrun.2 ▸ ih.input
      · rw [Op.run, heq] at hrun
        simp at hrun
    · obtain ⟨g', t, hrun', -, hinv, -⟩ := (Op.spec (fun _ => false) hop hargs).run ih
      rw [hrun', Prod.mk.injEq] at hrun
      exact hrun.2 ▸ hinv

end GateArena

end Qfbv
end SmtServer
