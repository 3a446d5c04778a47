import SmtServer.Qfbv.BlastQuery
import SmtServer.Qfbv.EvalSound

/-!
# Two implementations of the operators

`eval.rs` works on bytes and `blast.rs` on gates. They were written apart, and each is right about the
values of terms. So where the input gates are set to the bits of an assignment, the gates of every term
have the bits of the value that the evaluator finds.
-/

namespace SmtServer
namespace Qfbv

open Lib Outcome
open Lib.Smt (Value)
open Blast GateArena Circuits

variable {q : Query} {s : GateArena} {inputs : Nat → Bool} {assignment : EvalAssignment} {w : Nat}
  {deadline cancellation : Option Bool}

/-- The bits of a word of bytes. -/
def byteBits (w : Nat) (bytes : List UInt8) : List Bool := (List.range w).map (Bytes.getBit bytes)

theorem bits_of_spells {bytes : List UInt8} {x : BitVec w} (h : Bytes.Spells bytes x) :
    BitList.bits x = byteBits w bytes := by
  refine List.map_congr_left fun i _ => ?_
  rw [h.getBit, BitVec.testBit_toNat]

/-- Bit by bit, the gates have the value of the evaluator. -/
def SameBits (s : GateArena) (inputs : Nat → Bool) : BlastedValue → EvalValue → Prop
  | .bool gate, .bool value => s.value inputs gate = value
  | .bv gates, .bv w bytes => gates.map (s.value inputs) = byteBits w bytes
  | _, _ => False

theorem sameBits_of_means {gates : BlastedValue} {value : EvalValue} {v : Value} (hfits : s.Fits)
    (hg : s.Means inputs gates v) (hv : Eval.Means value v) : SameBits s inputs gates value := by
  cases hv with
  | bool u =>
    cases gates with
    | bool g => exact hg.2 hfits
    | bv => exact hg
  | bv h =>
    cases gates with
    | bool g => exact hg
    | bv bits => exact (map_value_of_computesAll hg hfits).trans (bits_of_spells h)

/-- The input gates of the variable are set to what the assignment says of it. -/
def SetTo (assignment : EvalAssignment) (s : GateArena) (inputs : Nat → Bool)
    (v : BlastedVariable) : Prop :=
  match v.sort with
  | .bool => v.bits.map (s.value inputs) =
      [Eval.boolVarValue assignment v.term v.name v.external]
  | .bv w => ∃ bytes, Eval.bvVarBytes assignment v.term w v.name v.external = ok bytes ∧
      v.bits.map (s.value inputs) = byteBits w bytes

theorem setTo_iff (hs : q.arena.Inv) (hin : assignment.InRange q) {v : BlastedVariable}
    (hv : Declared q.arena v) : SetTo assignment s inputs v ↔
      v.bits.map (s.value inputs) = valueBits (q.arena.value (assignment.env q) v.term) := by
  obtain ⟨k, hk, hdecl⟩ := Option.bind_eq_some_iff.mp hv.1
  obtain ⟨n, hn, rfl⟩ := Arena.kindAt_eq_some.mp hk
  have hread := EvalAssignment.readBy_env hs hin v.term n hn
  rw [hv.value hs, SetTo]
  generalize n.kind = k at hdecl hread
  cases k with
  | bvVar width name external =>
    rw [declares, declaration, Option.some_inj] at hdecl
    injection hdecl with _ hdecl
    injection hdecl with hname hdecl
    injection hdecl with hexternal hsort
    rw [← hsort, ← hname, ← hexternal]
    obtain ⟨bytes, hbytes, hspells⟩ := hread
    dsimp only
    rw [hbytes]
    constructor
    · rintro ⟨_, hsame, h⟩
      obtain rfl := Outcome.ok.inj hsame
      exact h.trans (bits_of_spells hspells).symm
    · exact fun h => ⟨bytes, rfl, h.trans (bits_of_spells hspells)⟩
  | boolVar name external =>
    rw [declares, declaration, Option.some_inj] at hdecl
    injection hdecl with _ hdecl
    injection hdecl with hname hdecl
    injection hdecl with hexternal hsort
    rw [← hsort, ← hname, ← hexternal, hread]
    rfl
  | _ => cases hdecl

/-- The gates of the variables are set to the assignment just if they read its environment. -/
theorem reads_iff (hs : q.arena.Inv) (hin : assignment.InRange q) (hfits : s.Fits)
    {vars : List BlastedVariable} (hvars : ∀ v ∈ vars, Declared q.arena v)
    (hlt : ∀ g ∈ vars.flatMap (·.bits), g < s.gates.length) :
    Blast.Reads q.arena s inputs (assignment.env q) vars ↔ ∀ v ∈ vars, SetTo assignment s inputs v := by
  refine forall₂_congr fun v hv => ?_
  rw [setTo_iff hs hin (hvars v hv)]
  constructor
  · exact fun h => map_value_of_computesAll h hfits
  · intro h
    rw [← h]
    exact computesAll_self fun g hg => hlt g (List.mem_flatMap.mpr ⟨v, hv, hg⟩)

/-- The term gets gates: the roots reach it, or it is a variable and a model is wanted. -/
def Blasted (q : Query) (t : TermId) : Prop :=
  Lib.Reach.Reachable (childrenAt q.arena) (roots q).reverse t ∨
    (q.wantModel = true ∧ (q.arena.kindAt t).any isVar = true)

end Qfbv
end SmtServer
