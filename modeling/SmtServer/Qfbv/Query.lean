import SmtServer.Qfbv.Arena

/-!
# What a query asks

A query is a set of Bool roots over an arena; it holds under an assignment when every assertion
and every assumption is true. Values and models are the types of `model.rs`: a model is a list of
entries for variable nodes, and an assignment *completes* it when it agrees with every entry,
whatever it says of variables the model leaves out.
-/

namespace SmtServer
namespace Qfbv

open Lib
open Lib.Smt (Value)

inductive ScalarValue where
  | bool (value : Bool)
  | bv (width : Nat) (bytes : List UInt8)
  deriving DecidableEq

structure ModelEntry where
  term : TermId
  name : String
  external : Option Nat
  value : ScalarValue
  deriving DecidableEq

structure Model where
  entries : List ModelEntry
  deriving DecidableEq

/-- The assignment gives the entry's variable the entry's value. -/
def Env.Agrees (ρ : Env) (e : ModelEntry) : Prop :=
  match e.value with
  | .bool value => ρ.bool e.term = value
  | .bv width bytes => BitVec.ofNat width (ρ.bv e.term) = BitVec.ofNat width (leNat bytes)

/-- The assignment extends the model to all variables. -/
def Env.Completes (ρ : Env) (m : Model) : Prop := ∀ e ∈ m.entries, ρ.Agrees e

namespace Query

/-- Every assertion and every assumption is true. -/
def Holds (q : Query) (ρ : Env) : Prop :=
  ∀ t ∈ q.assertionsAndAssumptions, (q.arena.value ρ t).toBool = true

def Satisfiable (q : Query) : Prop := ∃ ρ, q.Holds ρ

/-- A query as builders make them: a well-sorted arena, and roots that are Bool terms of it. -/
structure WellFormed (q : Query) : Prop where
  arena : q.arena.Inv
  roots : ∀ t ∈ q.assertionsAndAssumptions, q.arena.sortAt t = some .bool

theorem mem_roots {q : Query} {t : TermId} : t ∈ q.assertionsAndAssumptions ↔
    (∃ a ∈ q.assertions, a.root = t) ∨ t ∈ q.assumptions := by
  simp [assertionsAndAssumptions]

end Query
end Qfbv
end SmtServer
