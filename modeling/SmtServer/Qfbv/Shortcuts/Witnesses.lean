import SmtServer.Lib.Search
import SmtServer.Qfbv.Check
import SmtServer.Qfbv.Shortcuts.AffineByte

/-!
# `witnesses.rs`, `assignment.rs` — candidates that the evaluator judges

Three passes look for a model without a solver. One solves the asserted equations and disequations
whose two sides are linear in a **slice**, a term that is made of bits of narrow variables and of
constant bits; one goes through a few values for each of at most three variables; and one tries the
assignments that give every variable zeros, ones, or bits that come from a seed. None of them is
trusted with what it finds: a candidate counts when the evaluator accepts it. The first two are
written over the check that they hand their candidates to (`satisfied`), so that it can be said that
all of these are in range.
-/

namespace SmtServer
namespace Qfbv

open Lib Outcome

namespace Shortcuts

/-! ## Slices -/

inductive SliceBit where
  | const (value : Bool)
  | var (var : TermId) (bit : Nat)
  deriving DecidableEq

structure LinearSliceExpr where
  width : Nat
  constant : UInt64
  term : Option (TermId × UInt64)

def shiftSliceLeft (input : List SliceBit) (width : Nat) (shift : UInt64) : List SliceBit :=
  (List.range width).map fun index =>
    if shift < .ofNat width ∧ shift.toNat ≤ index then
      (input[index - shift.toNat]?).getD (.const false)
    else .const false

def shiftSliceRight (input : List SliceBit) (width : Nat) (shift : UInt64) : List SliceBit :=
  (List.range width).map fun index =>
    if shift < .ofNat width then (input[index + shift.toNat]?).getD (.const false)
    else .const false

/-- One input of `merge_disjoint_slice_bits`, up to a bit that is taken. -/
def mergeSliceBits (bits input : List SliceBit) : Option (List SliceBit) :=
  (input.take bits.length).zipIdx.foldlM (fun bits (bit, index) =>
    if bit = .const false then some bits
    else if bits[index]? ≠ some (.const false) then none
    else some (bits.set index bit)) bits

def mergeDisjointSliceBits (width : Nat) (left right : List SliceBit) : List SliceBit :=
  ([left, right].foldlM mergeSliceBits (List.replicate width (.const false))).getD []

/-- The bits of a slice, going down the term for a number of rounds. -/
def sliceBits (s : Arena) : (rounds : Nat) → (term : TermId) → Result (Option (List SliceBit))
  | 0, _ => .panic
  | rounds + 1, term => do
    let .bv width ← s.sort term | return none
    if 64 < width then return none
    match ← kind s term with
    | .bvConst _ bytes =>
      return some (← (List.range width).mapM fun bit => do
        let byte ← expect bytes[bit / 8]?
        return .const ((byte >>> .ofNat (bit % 8)) &&& 1 ≠ 0))
    | .bvVar width .. =>
      return if width ≤ 8 then some ((List.range width).map (.var term)) else none
    | .bvZeroExtend child extra => do
      let .bv childWidth ← s.sort child | return none
      if childWidth + extra ≠ width then return none
      return (← sliceBits s rounds child).map fun bits =>
        bits.take width ++ List.replicate (width - bits.length) (.const false)
    | .bvShl value amount => do
      let some shift ← constU64 s amount | return none
      return (← sliceBits s rounds value).map fun input => shiftSliceLeft input width shift
    | .bvLShr value amount => do
      let some shift ← constU64 s amount | return none
      return (← sliceBits s rounds value).map fun input => shiftSliceRight input width shift
    | .bvOr a b | .bvAdd a b => do
      let leftMask ← possibleBitMask s (a + 1) a
      let rightMask ← possibleBitMask s (b + 1) b
      let (some leftMask, some rightMask) := (leftMask, rightMask) | return none
      if leftMask &&& rightMask ≠ 0 then return none
      let left ← sliceBits s rounds a
      let right ← sliceBits s rounds b
      return left.bind fun left => right.map fun right => mergeDisjointSliceBits width left right
    | .bvConcat a b => do
      let left ← sliceBits s rounds a
      let right ← sliceBits s rounds b
      return left.bind fun left => right.map fun right => right ++ left
    | .bvExtract child high low => do
      let some input ← sliceBits s rounds child | return none
      if high < low ∨ input.length ≤ high then return none
      return some ((input.drop low).take (high - low + 1))
    | _ => return none

/-! ## Linear terms -/

def addLinearSliceTerm (value : LinearSliceExpr) (term : Option (TermId × UInt64)) :
    LinearSliceExpr :=
  match term with
  | none => value
  | some (term, coeff) =>
    let mask := maskForWidth value.width
    match value.term with
    | some (current, currentCoeff) =>
      if current = term then
        let coeff := (currentCoeff + coeff) &&& mask
        { value with term := if coeff ≠ 0 then some (term, coeff) else none }
      else { value with term := none }
    | none => { value with term := some (term, coeff &&& mask) }

def linearSliceAddAssign (left right : LinearSliceExpr) : LinearSliceExpr :=
  addLinearSliceTerm
    { left with constant := (left.constant + right.constant) &&& maskForWidth left.width }
    right.term

def linearSliceSubAssign (left right : LinearSliceExpr) : LinearSliceExpr :=
  addLinearSliceTerm
    { left with constant := (left.constant - right.constant) &&& maskForWidth left.width }
    (right.term.map fun t => (t.1, 0 - t.2))

def linearSliceNegAssign (value : LinearSliceExpr) : LinearSliceExpr :=
  let mask := maskForWidth value.width
  { value with
    constant := (0 - value.constant) &&& mask
    term := value.term.map fun t => (t.1, (0 - t.2) &&& mask) }

def linearSliceScaleAssign (value : LinearSliceExpr) (factor : UInt64) : LinearSliceExpr :=
  let mask := maskForWidth value.width
  { value with
    constant := (value.constant * factor) &&& mask
    term := value.term.map fun t => (t.1, (t.2 * factor) &&& mask) }

def combineLinearSlice (left right : Option LinearSliceExpr)
    (combine : LinearSliceExpr → LinearSliceExpr → LinearSliceExpr) : Option LinearSliceExpr :=
  left.bind fun left => right.bind fun right =>
    if left.width ≠ right.width then none else some (combine left right)

/-- A term that is a slice, with the coefficient one. -/
def sliceExpr (s : Arena) (width : Nat) (term : TermId) : Result (Option LinearSliceExpr) := do
  return (← sliceBits s (term + 1) term).map fun _ => ⟨width, 0, some (term, 1)⟩

def linearSliceExpr (s : Arena) : (rounds : Nat) → (term : TermId) → Result (Option LinearSliceExpr)
  | 0, _ => .panic
  | rounds + 1, term => do
    let .bv width ← s.sort term | return none
    if 32 < width then return none
    let mask := maskForWidth width
    match ← kind s term with
    | .bvConst _ bytes => return some ⟨width, bytesToU64 bytes &&& mask, none⟩
    | .bvAdd a b => do
      let left ← linearSliceExpr s rounds a
      let right ← linearSliceExpr s rounds b
      match combineLinearSlice left right linearSliceAddAssign with
      | some value => return some value
      | none => sliceExpr s width term
    | .bvSub a b => do
      let left ← linearSliceExpr s rounds a
      let right ← linearSliceExpr s rounds b
      match combineLinearSlice left right linearSliceSubAssign with
      | some value => return some value
      | none => sliceExpr s width term
    | .bvNeg child => return (← linearSliceExpr s rounds child).map linearSliceNegAssign
    | .bvMul a b => do
      match ← constTimesOther s a b with
      | some (constant, other) =>
        return (← linearSliceExpr s rounds other).map (linearSliceScaleAssign · constant)
      | none => sliceExpr s width term
    | _ => sliceExpr s width term

/-- `mod_inverse_power_two`: six steps of the iteration that doubles the bits that are right. -/
def modInversePowerTwo (value : UInt64) (width : Nat) : UInt64 :=
  let mask := maskForWidth width
  let inverse := (List.range 6).foldl
    (fun (inverse : UInt64) _ => (inverse * (2 - value * inverse)) &&& mask) 1
  inverse &&& mask

/-! ## Constraints on bits -/

/-- What a candidate requires of single bits of variables. -/
abbrev BitConstraints :=
  Std.TreeMap (TermId × Nat) Bool fun x y => (compare x.1 y.1).then (compare x.2 y.2)

/-- The loop of `assign_slice_value`. -/
def assignBits (value : UInt64) : (bits : List (SliceBit × Nat)) → BitConstraints →
    Option BitConstraints
  | [], constraints => some constraints
  | (.const actual, index) :: bits, constraints =>
    if actual = ((value >>> .ofNat index) &&& 1 != 0) then assignBits value bits constraints
    else none
  | (.var var bit, index) :: bits, constraints =>
    let expected := (value >>> .ofNat index) &&& 1 != 0
    if (constraints[(var, bit)]?).all (· = expected) then
      assignBits value bits (constraints.insert (var, bit) expected)
    else none

/-- `assign_slice_value`; the constraints of a call that answers `false` are given up. -/
def assignSliceValue (s : Arena) (term : TermId) (value : UInt64) (constraints : BitConstraints) :
    Result (Option BitConstraints) := do
  return (← sliceBits s (term + 1) term).bind fun bits => assignBits value bits.zipIdx constraints

/-- The two sides of an equation or a disequation, taken together. -/
def linearSliceDifference (s : Arena) (a b : TermId) : Result (Option LinearSliceExpr) := do
  let some left ← linearSliceExpr s (a + 1) a | return none
  let some right ← linearSliceExpr s (b + 1) b | return none
  if left.width ≠ right.width ∨ 32 < left.width then return none
  return some (linearSliceSubAssign left right)

/-- The value of the slice at which the difference is zero. -/
def linearSliceRoot (left : LinearSliceExpr) (coeff : UInt64) : UInt64 :=
  ((0 - left.constant) * modInversePowerTwo coeff left.width) &&& maskForWidth left.width

def addLinearSliceEquality (s : Arena) (a b : TermId) (constraints : BitConstraints) :
    Result (Option BitConstraints) := do
  let some left ← linearSliceDifference s a b | return none
  match left.term with
  | none =>
    return if left.constant &&& maskForWidth left.width = 0 then some constraints else none
  | some (term, coeff) =>
    if coeff &&& 1 = 0 then return none
    assignSliceValue s term (linearSliceRoot left coeff) constraints

def addLinearSliceDisequality (s : Arena) (a b : TermId) (constraints : BitConstraints) :
    Result (Option BitConstraints) := do
  let some left ← linearSliceDifference s a b | return none
  let mask := maskForWidth left.width
  match left.term with
  | none => return if left.constant &&& mask ≠ 0 then some constraints else none
  | some (term, coeff) =>
    if coeff &&& 1 = 0 then return none
    let forbidden := linearSliceRoot left coeff
    let values := [0, 1, forbidden ^^^ 1, mask].map (· &&& mask)
    (values.filter (· ≠ forbidden)).findSomeM? fun value => assignSliceValue s term value constraints

/-- `assignment.insert(var, bytes)`. -/
def assignBytes (assignment : Assignment) (var : TermId) (bytes : List UInt8) : Assignment :=
  fun t => if t = var then some bytes else assignment t

/-- The loop of `bit_constraints_to_assignment`. -/
def constraintsToAssignment (s : Arena) :
    (constraints : List ((TermId × Nat) × Bool)) → Assignment → Result Assignment
  | [], assignment => return assignment
  | ((var, bit), value) :: constraints, assignment => do
    let .bv width ← s.sort var | return fun _ => none
    if width ≤ bit then constraintsToAssignment s constraints assignment
    else
      let len := match bytesForWidth width with | .ok len => len | _ => 0
      let bytes := (assignment var).getD (List.replicate len 0)
      constraintsToAssignment s constraints
        (assignBytes assignment var (if value then Bytes.setBit bytes bit else bytes))

def bitConstraintsToAssignment (s : Arena) (constraints : BitConstraints) : Result Assignment :=
  constraintsToAssignment s constraints.toList fun _ => none

/-! ## The pass over slices -/

/-- What an equation or a disequation adds to constraints, if it can. -/
abbrev AddConstraints := BitConstraints → Result (Option BitConstraints)

/-- The two loops that carry the constraints of the rounds before. -/
def tryCarrying (s : Arena) (satisfied : Assignment → Result Bool) :
    (rounds : List AddConstraints) → (constraints : BitConstraints) → Result Bool
  | [], _ => return false
  | add :: rounds, constraints => do
    match ← add constraints with
    | none => tryCarrying s satisfied rounds constraints
    | some candidate => do
      let assignment ← bitConstraintsToAssignment s candidate
      if ← satisfied assignment then return true
      else tryCarrying s satisfied rounds candidate

/-- A round of the two loops that begin with no constraints. -/
def tryAlone (s : Arena) (satisfied : Assignment → Result Bool) (add : AddConstraints) :
    Result Bool := do
  match ← add ∅ with
  | none => return false
  | some candidate => do
    let assignment ← bitConstraintsToAssignment s candidate
    satisfied assignment

def hasLinearSliceSatWitnessBy (q : Query) (satisfied : Assignment → Result Bool) :
    Result Bool := do
  if q.assumptions ≠ [] ∨ 30000 < q.arena.nodes.length then return false
  let (equalities, disequalities) ← bvEqualitiesAndDisequalities q
  let rounds := equalities.map (fun p => addLinearSliceEquality q.arena p.1 p.2) ++
    disequalities.map fun p => addLinearSliceDisequality q.arena p.1 p.2
  if ← tryCarrying q.arena satisfied rounds ∅ then return true
  else rounds.anyM (tryAlone q.arena satisfied)

def hasLinearSliceSatWitness (q : Query) : Result Bool :=
  hasLinearSliceSatWitnessBy q (querySatisfiedByBvAssignment q)

/-! ## A few values for each variable -/

/-- A node of the loop over the arena; a Bool variable and a wide one end the search. -/
def pushSmallBvVar (vars : List (TermId × Nat)) (node : Node × Nat) : Option (List (TermId × Nat)) :=
  match node.1.kind with
  | .bvVar width .. => if width ≤ 64 then some (vars ++ [(node.2, width)]) else none
  | .boolVar .. => none
  | _ => some vars

def smallBvVars (s : Arena) : Option (List (TermId × Nat)) := s.nodes.zipIdx.foldlM pushSmallBvVar []

def explicitAssignmentCandidates (width : Nat) : List UInt64 :=
  let mask := maskForWidth width
  let values : List UInt64 := [0, 1, 2, 3, 4, 7, 8, 15, 16, 31, 32, 63, 64, 0x7f, 0x80, 0xff, 0x100,
    0xffff, 0x10000, 0x10000000, 0x10000001, 0x40000000, 0x80000000, .ofNat (2 ^ 64 - 1)]
  let values := if 1 < width then values ++ [(1 : UInt64) <<< .ofNat (min (width - 1) 63)] else values
  ((values.map (· &&& mask)).insertionSort (· ≤ ·)).eraseReps

def bytesFromU64 (width : Nat) (value : UInt64) : Result (List UInt8) := do
  let len ← bytesForWidth width
  return maskUnusedHighBits
    ((List.range len).map fun index => (value >>> .ofNat (index * 8)).toUInt8) width

/-- `explicit_assignment_search` from a variable on. What the source's map holds of the variables
from there on is overwritten before it is read. -/
def explicitAssignmentSearch (satisfied : Assignment → Result Bool) :
    (vars : List ((TermId × Nat) × List UInt64)) → Assignment → Result Bool
  | [], assignment => satisfied assignment
  | ((var, width), candidates) :: vars, assignment =>
    candidates.anyM fun value => do
      let bytes ← bytesFromU64 width value
      explicitAssignmentSearch satisfied vars (assignBytes assignment var bytes)

def hasSmallExplicitAssignmentWitnessBy (q : Query) (satisfied : Assignment → Result Bool) :
    Result Bool := do
  if q.assumptions ≠ [] ∨ 10000 < q.arena.nodes.length then return false
  let some vars := smallBvVars q.arena | return false
  if vars = [] ∨ 3 < vars.length then return false
  let candidates := vars.map fun v => explicitAssignmentCandidates v.2
  if 20000 < (candidates.map List.length).prod then return false
  explicitAssignmentSearch satisfied (vars.zip candidates) fun _ => none

def hasSmallExplicitAssignmentWitness (q : Query) : Result Bool :=
  hasSmallExplicitAssignmentWitnessBy q (querySatisfiedByBvAssignment q)

/-! ## One value for all variables -/

def variableBits : NodeKind → Nat
  | .bvVar width .. => width
  | .boolVar .. => 1
  | _ => 0

/-- `small_enough_for_seeded_witness`; the bits are counted up to the end of the arena. -/
def smallEnoughForSeededWitness (s : Arena) : Bool :=
  (s.nodes.map fun node => variableBits node.kind).sum ≤ 4096 ∧ s.nodes.length ≤ 20000

def witnessSeeds : List UInt64 :=
  [0x243f6a8885a308d3, 0x13198a2e03707344, 0xa4093822299f31d0, 0x082efa98ec4e6c89,
    0x452821e638d01377, 0xbe5466cf34e90c6c, 0xc0ac29b7c97c50dd, 0x3f84d5b5b5470917]

def hasConstantAssignmentWitness (q : Query) : Result Bool := do
  if q.assumptions ≠ [] ∨ 300000 < q.arena.nodes.length then return false
  if ← [false, true].anyM (querySatisfiedByConstantAssignment q) then return true
  else if !smallEnoughForSeededWitness q.arena then return false
  else witnessSeeds.anyM (querySatisfiedBySeededAssignment q)

/-! ## Candidates in range -/

variable {q : Query} {assignment : Assignment} {var : TermId} {bytes : List UInt8}

/-- The values of an assignment are as long as their variable and fit into its width. -/
def InRange (q : Query) (assignment : Assignment) : Prop := (EvalAssignment.explicit assignment).InRange q

theorem inRange_none : InRange q fun _ => none := fun _ _ _ _ _ _ h => nomatch h

theorem inRange_assignBytes (h : InRange q assignment)
    (hbytes : ∀ w name external, q.arena.kindAt var = some (.bvVar w name external) →
      bytes.length = divCeil8 w ∧ leNat bytes < 2 ^ w) :
    InRange q (assignBytes assignment var bytes) := by
  intro t w name external hk value hvalue
  unfold assignBytes at hvalue
  split at hvalue
  · subst t
    obtain rfl := Option.some.inj hvalue
    exact hbytes w name external hk
  · exact h t w name external hk value hvalue

/-- A bit below the width that is set leaves a value in range. -/
theorem leNat_setBit_lt {w bit : Nat} (hlen : bytes.length = divCeil8 w) (hlt : leNat bytes < 2 ^ w)
    (hbit : bit < w) : leNat (Bytes.setBit bytes bit) < 2 ^ w := by
  have hin : bit < 8 * bytes.length := by
    rw [hlen, divCeil8]
    omega
  refine Nat.lt_pow_two_of_testBit _ fun j hj => ?_
  rw [Bytes.testBit_setBit hin, Nat.testBit_lt_two_pow (hlt.trans_le (Nat.pow_le_pow_right (by decide) hj))]
  simp
  omega

theorem constraintsToAssignment_inRange (hs : q.arena.Inv) :
    ∀ (constraints : List ((TermId × Nat) × Bool)) {assignment out : Assignment},
      InRange q assignment → constraintsToAssignment q.arena constraints assignment = ok out →
        InRange q out
  | [], _, _, h, hout => Outcome.ok.inj hout ▸ h
  | ((var, bit), value) :: constraints, assignment, out, h, hout => by
    rw [constraintsToAssignment] at hout
    obtain ⟨σ, hσ, hout⟩ := bind_eq_ok.mp hout
    have hσ := Arena.sort_eq_ok.mp hσ
    cases σ with
    | bool => exact Outcome.ok.inj hout ▸ inRange_none
    | bv width =>
      dsimp only at hout
      split at hout
      · exact constraintsToAssignment_inRange hs constraints h hout
      · rename_i hbit
        refine constraintsToAssignment_inRange hs constraints (inRange_assignBytes h ?_) hout
        intro w name external hk
        have hw : width = w := by
          obtain ⟨σ, hvar, hsort⟩ := hs.hasSort hk
          obtain rfl : σ = .bv w := hsort
          exact Arena.IsBv.inj hσ hvar
        subst hw
        rw [Arena.bytesForWidth_ok (hs.sortOk hσ)]
        dsimp only
        have hbefore : ((assignment var).getD (List.replicate (divCeil8 width) 0)).length =
            divCeil8 width ∧
            leNat ((assignment var).getD (List.replicate (divCeil8 width) 0)) < 2 ^ width := by
          cases hv : assignment var with
          | none => simp
          | some bytes => exact h var width name external hk bytes hv
        split
        · exact ⟨by rw [Bytes.length_setBit, hbefore.1],
            leNat_setBit_lt hbefore.1 hbefore.2 (Nat.lt_of_not_le hbit)⟩
        · exact hbefore

theorem bitConstraintsToAssignment_inRange (hs : q.arena.Inv) {constraints : BitConstraints}
    (h : bitConstraintsToAssignment q.arena constraints = ok assignment) : InRange q assignment :=
  constraintsToAssignment_inRange hs _ inRange_none h

theorem bytesFromU64_inRange {width : Nat} {value : UInt64}
    (h : bytesFromU64 width value = ok bytes) :
    bytes.length = divCeil8 width ∧ leNat bytes < 2 ^ width := by
  obtain ⟨len, hlen, h⟩ := bind_eq_ok.mp h
  obtain rfl : len = divCeil8 width := by
    obtain ⟨-, -, hlen⟩ := bind_eq_ok.mp hlen
    exact (Outcome.ok.inj hlen).symm
  obtain rfl := Outcome.ok.inj h
  have hl : ((List.range (divCeil8 width)).map fun index =>
      (value >>> UInt64.ofNat (index * 8)).toUInt8).length = divCeil8 width := by simp
  refine ⟨by rw [Bytes.length_maskUnusedHighBits, hl], ?_⟩
  rw [Bytes.leNat_maskUnusedHighBits hl]
  exact Nat.mod_lt _ (Nat.two_pow_pos width)

/-! ## Searches that the check decides -/

theorem tryCarrying_validated (hs : q.arena.Inv) :
    ∀ (rounds : List AddConstraints) (constraints : BitConstraints),
      Validated (InRange q) fun satisfied => tryCarrying q.arena satisfied rounds constraints
  | [], _ => .none
  | add :: rounds, constraints => by
    refine .bind fun candidate _ => ?_
    cases candidate with
    | none => exact tryCarrying_validated hs rounds constraints
    | some candidate =>
      refine .bind fun assignment h => ?_
      exact (Validated.ask (bitConstraintsToAssignment_inRange hs h)).orElse
        (tryCarrying_validated hs rounds candidate)

theorem tryAlone_validated (hs : q.arena.Inv) (add : AddConstraints) :
    Validated (InRange q) fun satisfied => tryAlone q.arena satisfied add := by
  refine .bind fun candidate _ => ?_
  cases candidate with
  | none => exact .none
  | some candidate =>
    exact .bind fun assignment h => .ask (bitConstraintsToAssignment_inRange hs h)

theorem hasLinearSliceSatWitnessBy_validated (hs : q.arena.Inv) :
    Validated (InRange q) (hasLinearSliceSatWitnessBy q) := by
  unfold hasLinearSliceSatWitnessBy
  split
  · exact .none
  · refine .bind fun _ _ => ?_
    exact (tryCarrying_validated hs _ _).orElse (.anyM fun add _ => tryAlone_validated hs add)

/-- The variables that are listed are variables of the arena, with their widths. -/
def ListsVars (s : Arena) (vars : List (TermId × Nat)) : Prop :=
  ∀ v ∈ vars, ∃ name external, s.kindAt v.1 = some (.bvVar v.2 name external)

theorem pushSmallBvVar_lists {s : Arena} {vars vars' : List (TermId × Nat)} {node : Node × Nat}
    (hnode : s.nodes[node.2]? = some node.1) (hvars : ListsVars s vars)
    (h : pushSmallBvVar vars node = some vars') : ListsVars s vars' := by
  have hk : s.kindAt node.2 = some node.1.kind := Arena.kindAt_of_node hnode
  unfold pushSmallBvVar at h
  split at h
  · rename_i width name external hkind
    split at h
    · obtain rfl := Option.some.inj h
      intro v hv
      rcases List.mem_append.mp hv with hv | hv
      · exact hvars v hv
      · obtain rfl := List.mem_singleton.mp hv
        exact ⟨name, external, hk.trans (congrArg some hkind)⟩
    · cases h
  · cases h
  · exact Option.some.inj h ▸ hvars

theorem smallBvVars_lists {s : Arena} {vars : List (TermId × Nat)} (h : smallBvVars s = some vars) :
    ListsVars s vars := by
  have key : ∀ (nodes : List (Node × Nat)) (vars : List (TermId × Nat)) {out},
      (∀ node ∈ nodes, s.nodes[node.2]? = some node.1) → ListsVars s vars →
        nodes.foldlM pushSmallBvVar vars = some out → ListsVars s out := by
    intro nodes
    induction nodes with
    | nil => exact fun _ _ _ hvars h => Option.some.inj h ▸ hvars
    | cons node nodes ih =>
      intro vars out hnodes hvars h
      rw [List.forall_mem_cons] at hnodes
      rw [List.foldlM_cons] at h
      obtain ⟨vars', hvars', h⟩ := Option.bind_eq_some_iff.mp h
      exact ih vars' hnodes.2 (pushSmallBvVar_lists hnodes.1 hvars hvars') h
  refine key _ _ (fun node hnode => ?_) (fun _ hv => absurd hv List.not_mem_nil) h
  exact List.mem_zipIdx_iff_getElem?.mp hnode

theorem explicitAssignmentSearch_validated :
    ∀ (vars : List ((TermId × Nat) × List UInt64)) (assignment : Assignment),
      ListsVars q.arena (vars.map (·.1)) → InRange q assignment →
        Validated (InRange q) fun satisfied => explicitAssignmentSearch satisfied vars assignment
  | [], _, _, h => .ask h
  | ((var, width), candidates) :: vars, assignment, hvars, h => by
    obtain ⟨⟨name, external, hvar⟩, hrest⟩ := List.forall_mem_cons.mp hvars
    refine .anyM fun value _ => .bind fun bytes hbytes => ?_
    refine explicitAssignmentSearch_validated vars _ hrest (inRange_assignBytes h ?_)
    intro w name' external' hk
    obtain ⟨rfl, -, -⟩ := NodeKind.bvVar.inj (Option.some.inj (hvar.symm.trans hk))
    exact bytesFromU64_inRange hbytes

theorem hasSmallExplicitAssignmentWitnessBy_validated :
    Validated (InRange q) (hasSmallExplicitAssignmentWitnessBy q) := by
  unfold hasSmallExplicitAssignmentWitnessBy
  split
  · exact .none
  · split
    · rename_i vars hvars
      dsimp only
      split
      · exact .none
      · split
        · exact .none
        · refine explicitAssignmentSearch_validated _ _ (fun v hv => ?_) inRange_none
          obtain ⟨w, hw, rfl⟩ := List.mem_map.mp hv
          exact smallBvVars_lists hvars w.1 (List.of_mem_zip hw).1
    · exact .none

/-! ## Soundness -/

/-- The values that the evaluator gives the variables: the bytes of the assignment, zero where it
has none, and false for a Bool. -/
structure Extends (q : Query) (assignment : Assignment) (ρ : Env) : Prop where
  given : ∀ t w name external bytes, q.arena.kindAt t = some (.bvVar w name external) →
    assignment t = some bytes → ρ.bv t = leNat bytes
  left : ∀ t w name external, q.arena.kindAt t = some (.bvVar w name external) →
    assignment t = none → ρ.bv t = 0
  bools : ∀ t name external, q.arena.kindAt t = some (.boolVar name external) → ρ.bool t = false

theorem extends_env : Extends q assignment ((EvalAssignment.explicit assignment).env q) := by
  refine ⟨?_, ?_, ?_⟩
  · intro t w name external bytes hk hbytes
    simp [EvalAssignment.env, hk, Eval.bvVarBytes, hbytes]
  · intro t w name external hk hnone
    simp [EvalAssignment.env, hk, Eval.bvVarBytes, hnone]
  · intro t name external hk
    simp [EvalAssignment.env, hk, Eval.boolVarValue]

/-- A pass that finds nothing the evaluator did not accept, in range, finds a model. -/
theorem holds_of_validated {search : (Assignment → Result Bool) → Result Bool} (hq : q.WellFormed)
    (hv : Validated (InRange q) search)
    (h : search (querySatisfiedByBvAssignment q) = ok true) : ∃ ρ, q.Holds ρ := by
  obtain ⟨assignment, hin, hsat⟩ := hv.finds _ h
  exact ⟨_, holds_of_querySatisfiedBy hq hin hsat⟩

/-- The same of a list of assignments that are in range. -/
theorem holds_of_anyM_assignment {α : Type} (hq : q.WellFormed) (assignment : α → EvalAssignment)
    (hin : ∀ a, (assignment a).InRange q) {as : List α}
    (h : as.anyM (fun a => querySatisfiedBy q (assignment a)) = ok true) : ∃ ρ, q.Holds ρ := by
  have hv : Validated (fun a : α => (assignment a).InRange q) 
      fun check : α → Result Bool => as.anyM check := .anyM fun a _ => .ask (hin a)
  obtain ⟨a, ha, hsat⟩ := hv.finds _ h
  exact ⟨_, holds_of_querySatisfiedBy hq ha hsat⟩

theorem holds_of_constantAssignment (hq : q.WellFormed)
    (h : hasConstantAssignmentWitness q = ok true) : ∃ ρ, q.Holds ρ := by
  unfold hasConstantAssignmentWitness at h
  split at h
  · cases h
  · obtain ⟨found, hfound, h⟩ := bind_eq_ok.mp h
    cases found with
    | true => exact holds_of_anyM_assignment hq .constant (fun _ => trivial) hfound
    | false =>
      rw [if_neg Bool.false_ne_true] at h
      split at h
      · cases h
      · exact holds_of_anyM_assignment hq .seed (fun _ => trivial) h

theorem validated_sat_shortcuts_are_sound (hq : q.WellFormed) :
    (hasLinearSliceSatWitness q = ok true ∨ hasSmallExplicitAssignmentWitness q = ok true ∨
        hasConstantAssignmentWitness q = ok true → ∃ ρ, q.Holds ρ) ∧
      Validated (InRange q) (hasLinearSliceSatWitnessBy q) ∧
      Validated (InRange q) (hasSmallExplicitAssignmentWitnessBy q) ∧
      ∀ assignment, InRange q assignment → querySatisfiedByBvAssignment q assignment = ok true →
        ∃ ρ, Extends q assignment ρ ∧ q.Holds ρ := by
  have hslice := hasLinearSliceSatWitnessBy_validated hq.arena
  have hsmall := hasSmallExplicitAssignmentWitnessBy_validated (q := q)
  refine ⟨?_, hslice, hsmall, fun assignment hin hsat =>
    ⟨_, extends_env, holds_of_querySatisfiedBy hq hin hsat⟩⟩
  rintro (h | h | h)
  · exact holds_of_validated hq hslice h
  · exact holds_of_validated hq hsmall h
  · exact holds_of_constantAssignment hq h

/-- `zext(x) << 4 | 5 = 0x35` over eight bits, for an `x` of four. -/
def slicedNibble : Query where
  arena := ⟨[
    ⟨.bvVar 4 "x" (some 0), .bv 4⟩,
    ⟨.bvZeroExtend 0 4, .bv 8⟩,
    ⟨.bvConst 8 [4], .bv 8⟩,
    ⟨.bvShl 1 2, .bv 8⟩,
    ⟨.bvConst 8 [5], .bv 8⟩,
    ⟨.bvOr 3 4, .bv 8⟩,
    ⟨.bvConst 8 [0x35], .bv 8⟩,
    ⟨.bvEq 5 6, .bool⟩]⟩
  assertions := [⟨7, none⟩]
  assumptions := []
  command := .solve
  target := none
  signed := false
  wantModel := false
  wantCore := false
  getValues := []

theorem sat_shortcuts_of_slicedNibble :
    hasLinearSliceSatWitness slicedNibble = ok true ∧
      hasSmallExplicitAssignmentWitness slicedNibble = ok true ∧ ∃ ρ, slicedNibble.Holds ρ := by
  have hslice : hasLinearSliceSatWitness slicedNibble = ok true := by decide
  exact ⟨hslice, by decide, (validated_sat_shortcuts_are_sound
    (Query.wellFormed_of_check (by decide) (by decide))).1 (.inl hslice)⟩

end Shortcuts
end Qfbv
end SmtServer
