import SmtServer.Lib.Popcount
import SmtServer.Qfbv.Shortcuts.Matching

/-!
# `popcount.rs` — two programs that count one bits

The one program adds up the bits of its input. The other clears the lowest one bit of its input over
and over, and counts how often the word it has is not zero. A query that says that the two outcomes
differ cannot be satisfied (`yurichev_popcount_is_sound`).

The words of the second program are variables with equations between them. An equation may be
written either way round, and of the equations of a variable the first is taken; zero and one may be
variables that are asserted to be zero and one.
-/

namespace SmtServer
namespace Qfbv

open Lib Outcome Popcount

namespace Shortcuts

def collectBvAddTerms (s : Arena) (term : TermId) : Result (List TermId) :=
  collect (·.bvAdd?) s (term + 1) term

/-- The loop over the summands that ticks off a number for each in `seen`; in the end all must be
ticked. `outside` is what happens to a number that is out of range. -/
def markSeen (index : TermId → Result (Option Nat)) (outside : Result Bool) :
    (leaves : List TermId) → (seen : List Bool) → Result Bool
  | [], seen => return seen.all id
  | leaf :: leaves, seen => do
    match ← index leaf with
    | none => return false
    | some i =>
      match seen[i]? with
      | none => outside
      | some true => return false
      | some false => markSeen index outside leaves (seen.set i true)

/-- The loop over the equalities that puts what `current` is equal to on the stack. -/
def pushPartners (current : TermId) (seen : List TermId) (equalities : List BvPair)
    (stack : List TermId) : List TermId :=
  equalities.foldl (fun stack (left, right) =>
    if left = current ∧ right ∉ seen then right :: stack
    else if right = current ∧ left ∉ seen then left :: stack
    else stack) stack

/-- The loop of `equivalent_under_equalities`; the stack is a list with its top first. -/
def searchEqualities (equalities : List BvPair) (b : TermId) :
    (rounds : Nat) → (stack seen : List TermId) → Result Bool
  | 0, _, _ => .panic
  | _ + 1, [], _ => return false
  | rounds + 1, current :: stack, seen =>
    if current = b then
      return true
    else if current ∈ seen then
      searchEqualities equalities b rounds stack seen
    else
      let seen := current :: seen
      searchEqualities equalities b rounds (pushPartners current seen equalities stack) seen

/-- A term is taken on once, and then at most one other for each equality is put on the stack. -/
def equivalentUnderEqualities (a b : TermId) (equalities : List BvPair) : Result Bool :=
  if a = b then return true
  else searchEqualities equalities b ((2 * equalities.length + 1) * (equalities.length + 1) + 2) [a] []

def bvVarByName (s : Arena) (name : String) (width : Nat) : Option TermId :=
  s.nodes.findIdx? fun node =>
    match node.kind with
    | .bvVar actual actualName _ => actual == width && actualName == name
    | _ => false

def equalityPartner (term : TermId) (equalities : List BvPair) : Option TermId :=
  equalities.findSome? fun (a, b) => if a = term then some b else if b = term then some a else none

/-- One of the two sides of `naive_popcount_leaf_shift`. -/
def naivePopcountShift (s : Arena) (input : TermId) (width : Nat) (candidate mask : TermId) :
    Result (Option (Option Nat)) := do
  if !(← isBvConstU64 s mask width 1) then return none
  if candidate = input then return some (some 0)
  let .bvLShr value amount ← kind s candidate | return none
  if value ≠ input then return none
  match ← constU64 s amount with
  | none => return none
  | some shift => return some (if shift.toNat < 2 ^ 32 then some shift.toNat else none)

def naivePopcountLeafShift (s : Arena) (term input : TermId) (width : Nat) :
    Result (Option Nat) := do
  let some (a, b) ← bvAndParts s term | return none
  match ← naivePopcountShift s input width a b with
  | some shift => return shift
  | none => return (← naivePopcountShift s input width b a).getD none

def matchesNaivePopcount (s : Arena) (term input : TermId) (width : Nat) : Result Bool := do
  let leaves ← collectBvAddTerms s term
  if leaves.length ≠ width then return false
  markSeen (fun leaf => naivePopcountLeafShift s leaf input width) (return false) leaves
    (List.replicate width false)

/-- The body of `is_zero_alias` and `is_one_alias`. -/
def isAlias (isConst : Arena → TermId → Result Bool) (s : Arena) (term : TermId)
    (equalities : List BvPair) : Result Bool :=
  isConst s term <||> equalities.anyM fun (a, b) =>
    (pure (a == term) <&&> isConst s b) <||> (pure (b == term) <&&> isConst s a)

def isZeroAlias (s : Arena) (term : TermId) (equalities : List BvPair) : Result Bool :=
  isAlias isZeroBvConst s term equalities

def isOneAlias (s : Arena) (term : TermId) (equalities : List BvPair) : Result Bool :=
  isAlias isOneBvConst s term equalities

def isMinusOneAlias (s : Arena) (candidate input : TermId) (equalities : List BvPair) :
    Result Bool := do
  let .bvSub a b ← kind s candidate | return false
  pure (a == input) <&&> isOneAlias s b equalities

def bvEqZeroInput (s : Arena) (term : TermId) (equalities : List BvPair) :
    Result (Option TermId) := do
  let some (a, b) ← bvEqPair s term | return none
  if ← isZeroAlias s a equalities then return some b
  if ← isZeroAlias s b equalities then return some a
  return none

def isEqToZeroAlias (s : Arena) (term input : TermId) (equalities : List BvPair) :
    Result Bool := do
  return (← bvEqZeroInput s term equalities) == some input

def matchesKernighanStep (s : Arena) (term input : TermId) (equalities : List BvPair) :
    Result Bool := do
  let .bvIte cond thenValue elseValue ← kind s term | return false
  if !(← isEqToZeroAlias s cond input equalities) then return false
  if thenValue ≠ input then return false
  let some (a, b) ← bvAndParts s elseValue | return false
  (pure (a == input) <&&> isMinusOneAlias s b input equalities) <||>
    (pure (b == input) <&&> isMinusOneAlias s a input equalities)

def kernighanCountLeaf (s : Arena) (term : TermId) (equalities : List BvPair) :
    Result (Option TermId) := do
  let .bvIte cond thenValue elseValue ← kind s term | return none
  if !(← isZeroAlias s thenValue equalities) then return none
  if !(← isOneAlias s elseValue equalities) then return none
  bvEqZeroInput s cond equalities

def matchesKernighanPopcount (s : Arena) (term : TermId) (chain : List TermId)
    (equalities : List BvPair) : Result Bool := do
  let leaves ← collectBvAddTerms s term
  if leaves.length ≠ chain.length then return false
  markSeen (fun leaf => do
      let some input ← kernighanCountLeaf s leaf equalities | return none
      return chain.findIdx? (· == input)) .panic leaves
    (List.replicate chain.length false)

/-- One round of the loop over the words of the second program. -/
def kernighanStepAt (s : Arena) (equalities : List BvPair) (chain : List TermId) (index : Nat) :
    Result Bool := do
  let next ← expect chain[index + 1]?
  match equalityPartner next equalities with
  | none => return false
  | some definition => matchesKernighanStep s definition (← expect chain[index]?) equalities

def hasYurichevPopcountContradiction (q : Query) : Result Bool := do
  if q.assumptions ≠ [] ∨ 2000 < q.arena.nodes.length then return false
  let some x := bvVarByName q.arena "naive_x" 64 | return false
  let some naiveOut := bvVarByName q.arena "naive_out" 64 | return false
  let some kernOut := bvVarByName q.arena "kern_out" 64 | return false
  let (equalities, disequalities) ← bvEqualitiesAndDisequalities q
  let some kernX0 := bvVarByName q.arena "kern_x0" 64 | return false
  if !(← equivalentUnderEqualities x kernX0 equalities) then return false
  if !disequalities.any (fun (a, b) => sameUnorderedPair a b naiveOut kernOut) then return false
  let some naiveExpr := equalityPartner naiveOut equalities | return false
  if !(← matchesNaivePopcount q.arena naiveExpr x 64) then return false
  let some chain := (List.range 65).mapM fun index => bvVarByName q.arena s!"kern_x{index}" 64
    | return false
  if !(← (List.range 64).allM (kernighanStepAt q.arena equalities chain)) then return false
  let some kernExpr := equalityPartner kernOut equalities | return false
  matchesKernighanPopcount q.arena kernExpr (chain.take 64) equalities

/-! ## Sums -/

variable {s : Arena} {q : Query} {ρ : Env} {t a b : TermId} {w n : Nat} {equalities : List BvPair}

theorem collectBvAddTerms_eq (hs : s.Inv) (ht : s.IsBv t w) {leaves : List TermId}
    (h : collectBvAddTerms s t = ok leaves) :
    (∀ leaf ∈ leaves, s.IsBv leaf w) ∧ ∀ ρ, s.bv ρ t w = (leaves.map (s.bv ρ · w)).sum := by
  refine (collect_answers (P := fun t leaves => s.IsBv t w → (∀ leaf ∈ leaves, s.IsBv leaf w) ∧
    ∀ ρ, s.bv ρ t w = (leaves.map (s.bv ρ · w)).sum) hs ?_ ?_ ?_ _ t
      (Nat.lt_succ_self t) ht).of_eq h ht
  · intro k a b hk
    rw [NodeKind.bvAdd?_eq.mp hk]
    simp [NodeKind.children]
  · intro t k _ _ ht
    simp [ht]
  · intro t k a b la lb hk hsplit iha ihb ht
    rw [NodeKind.bvAdd?_eq.mp hsplit] at hk
    obtain ⟨ha, hb⟩ := hs.binary_sort hk ht id
    obtain ⟨hla, hsuma⟩ := iha ha
    obtain ⟨hlb, hsumb⟩ := ihb hb
    refine ⟨List.forall_mem_append.mpr ⟨hla, hlb⟩, fun ρ => ?_⟩
    rw [(Arena.bv_bvAdd hs hk ht).2.2, hsuma, hsumb, List.map_append, List.sum_append]

/-- Every summand gets a number of its own, and every number that was free is given out. -/
theorem markSeen_true {index : TermId → Result (Option Nat)} {outside : Result Bool}
    (hout : outside ≠ ok true) {leaves : List TermId} {seen : List Bool}
    (h : markSeen index outside leaves seen = ok true) :
    ∃ numbers, List.Forall₂ (fun leaf i => index leaf = ok (some i)) leaves numbers ∧
      numbers.Nodup ∧ ∀ i, i ∈ numbers ↔ seen[i]? = some false := by
  induction leaves generalizing seen with
  | nil =>
    refine ⟨[], .nil, .nil, fun i => ⟨fun hi => (nomatch hi), fun hi => ?_⟩⟩
    have hall := List.all_eq_true.mp (Outcome.ok.inj h)
    exact nomatch hall false (List.mem_of_getElem? hi)
  | cons leaf leaves ih =>
    obtain ⟨o, ho, h⟩ := bind_eq_ok.mp h
    cases o with
    | none => cases h
    | some i =>
      dsimp only at h
      split at h
      · exact absurd h hout
      · cases h
      · rename_i hi
        obtain ⟨numbers, hnumbers, hnodup, hmem⟩ := ih h
        have hlt := (List.getElem?_eq_some_iff.mp hi).1
        refine ⟨i :: numbers, .cons ho hnumbers, List.nodup_cons.mpr ⟨?_, hnodup⟩, fun j => ?_⟩
        · rw [hmem, List.getElem?_set_self hlt]
          simp
        · rw [List.mem_cons, hmem]
          by_cases hij : j = i
          · simp [hij, hi]
          · rw [List.getElem?_set_ne (Ne.symm hij)]
            simp [hij]

/-- A sum whose summands have been ticked off, in the order of their numbers. -/
theorem sum_of_markSeen {index : TermId → Result (Option Nat)} {outside : Result Bool}
    {leaves : List TermId} {value : TermId → BitVec w} (part : Nat → BitVec w)
    (hout : outside ≠ ok true)
    (hpart : ∀ leaf ∈ leaves, ∀ i < n, index leaf = ok (some i) → value leaf = part i)
    (h : markSeen index outside leaves (List.replicate n false) = ok true) :
    (leaves.map value).sum = ∑ i ∈ Finset.range n, part i := by
  obtain ⟨numbers, hnumbers, hnodup, hmem⟩ := markSeen_true hout h
  have hmem' : ∀ i, i ∈ numbers ↔ i ∈ List.range n := fun i => by
    rw [hmem, List.getElem?_replicate, List.mem_range]
    simp
  have hperm : numbers.Perm (List.range n) :=
    (List.perm_ext_iff_of_nodup hnodup List.nodup_range).mpr hmem'
  have hmap : leaves.map value = numbers.map part := by
    have hlt : ∀ i ∈ numbers, i < n := fun i hi => List.mem_range.mp ((hmem' i).mp hi)
    clear hmem hmem' hperm hnodup h
    induction hnumbers with
    | nil => rfl
    | cons hleaf _ ih =>
      rw [List.forall_mem_cons] at hpart hlt
      rw [List.map_cons, List.map_cons, hpart.1 _ hlt.1 hleaf, ih hpart.2 hlt.2]
  rw [hmap, (hperm.map part).sum_eq]
  rfl

/-! ## Adding up bits -/

/-- A shift amount of at most 64 bits is read in full. -/
theorem num_of_constU64 (hs : s.Inv) (ht : s.IsBv t w) (hw : w ≤ 64) {v : UInt64}
    (h : constU64 s t = ok (some v)) (ρ : Env) : (s.bv ρ t w).toNat = v.toNat := by
  obtain ⟨w', bytes, hk, rfl⟩ := (constU64_answers ht).of_eq h v rfl
  obtain ⟨σ, hσ, rfl, -, hlt⟩ := hs.hasSort hk
  obtain rfl := ht.inj hσ
  rw [← ht.num_eq hs, Arena.num_bvConst hs hk, toNat_bytesToU64,
    Nat.mod_eq_of_lt (Nat.lt_of_lt_of_le hlt (Nat.pow_le_pow_right (by decide) hw))]

theorem naivePopcountShift_some (hs : s.Inv) {input : TermId} (ha : s.IsBv a w) (hw : w ≤ 64)
    {o : Option Nat} {i : Nat} (h : naivePopcountShift s input w a b = ok (some o)) (ho : o = some i)
    (ρ : Env) : s.bv ρ b w = 1 ∧ s.bv ρ a w = s.bv ρ input w >>> i := by
  obtain ⟨hmask, h⟩ := of_unless h
  have hone := (bv_of_isBvConstU64 (ρ := ρ) hs hmask).2
  refine ⟨hone, ?_⟩
  split at h
  · rename_i heq
    obtain rfl := Option.some.inj (Outcome.ok.inj h)
    obtain rfl := Option.some.inj ho
    rw [heq, BitVec.ushiftRight_zero]
  · obtain ⟨value, amount, hk, h⟩ := let_bvLShr h
    obtain ⟨hvalue, h⟩ := of_if h
    obtain ⟨o', ho', h⟩ := bind_eq_ok.mp h
    cases o' with
    | none => cases h
    | some shift =>
      obtain rfl := Option.some.inj (Outcome.ok.inj h)
      rw [Option.ite_none_right_eq_some, Option.some.injEq] at ho
      obtain ⟨-, hamount, hval⟩ := Arena.bv_bvLShr (ρ := ρ) hs hk ha
      rw [hval, not_not.mp hvalue, BitVec.ushiftRight_eq',
        num_of_constU64 hs hamount hw ho', ho.2]

/-- A summand of the first program is one bit of the input. -/
theorem naivePopcountLeafShift_some (hs : s.Inv) {input : TermId} (ht : s.IsBv t w) (hw : w ≤ 64)
    {i : Nat} (h : naivePopcountLeafShift s t input w = ok (some i)) (ρ : Env) :
    s.bv ρ t w = s.bv ρ input w >>> i &&& 1 := by
  obtain ⟨a, b, hparts, h⟩ := let_pair h
  obtain ⟨ha, hb, hval⟩ := Arena.bv_bvAnd (ρ := ρ) hs (bvAndParts_eq.mp hparts) ht
  obtain ⟨o, ho, h⟩ := bind_eq_ok.mp h
  cases o with
  | some shift =>
    obtain ⟨hone, hshift⟩ := naivePopcountShift_some hs ha hw ho (Outcome.ok.inj h) ρ
    rw [hval, hone, hshift]
  | none =>
    obtain ⟨o, ho, h⟩ := bind_eq_ok.mp h
    cases o with
    | none => cases h
    | some shift =>
      obtain ⟨hone, hshift⟩ := naivePopcountShift_some hs hb hw ho (Outcome.ok.inj h) ρ
      rw [hval, hone, hshift, BitVec.and_comm]

theorem matchesNaivePopcount_true (hs : s.Inv) {input : TermId} (ht : s.IsBv t w) (hw : w ≤ 64)
    (h : matchesNaivePopcount s t input w = ok true) (ρ : Env) :
    s.bv ρ t w = (s.bv ρ input w).cpop := by
  obtain ⟨leaves, hleaves, h⟩ := bind_eq_ok.mp h
  obtain ⟨hsorts, hsum⟩ := collectBvAddTerms_eq hs ht hleaves
  obtain ⟨-, h⟩ := of_if h
  rw [hsum, cpop_eq_sum (ht.pos hs)]
  refine sum_of_markSeen _ (by simp) (fun leaf hleaf i _ hi => ?_) h
  exact naivePopcountLeafShift_some hs (hsorts leaf hleaf) hw hi ρ

/-! ## Following equations -/

theorem EqualBv.trans {c : TermId} (hab : EqualBv q a b) (hbc : EqualBv q b c) : EqualBv q a c := by
  obtain ⟨w, ha, hb, heq⟩ := hab
  obtain ⟨hc, heq'⟩ := hbc.of_width hb
  exact ⟨w, ha, hc, fun ρ hρ => (heq ρ hρ).trans (heq' ρ hρ)⟩

theorem length_pushPartners {current : TermId} {seen stack : List TermId} :
    (pushPartners current seen equalities stack).length ≤ stack.length + equalities.length := by
  induction equalities generalizing stack with
  | nil => simp [pushPartners]
  | cons p rest ih =>
    rw [pushPartners, List.foldl_cons, List.length_cons]
    refine ih.trans ?_
    dsimp only
    split
    · simp only [List.length_cons]
      omega
    · split
      · simp only [List.length_cons]
        omega
      · omega

theorem mem_pushPartners {current x : TermId} {seen stack : List TermId}
    (h : x ∈ pushPartners current seen equalities stack) :
    x ∈ stack ∨ (current, x) ∈ equalities ∨ (x, current) ∈ equalities := by
  induction equalities generalizing stack with
  | nil => exact .inl h
  | cons p rest ih =>
    rw [pushPartners, List.foldl_cons] at h
    rcases ih h with h | h | h
    · dsimp only at h
      split at h
      · rename_i hp
        rcases List.mem_cons.mp h with rfl | h
        · exact .inr (.inl (by simp [← hp.1]))
        · exact .inl h
      · split at h
        · rename_i hp
          rcases List.mem_cons.mp h with rfl | h
          · exact .inr (.inr (by simp [← hp.1]))
          · exact .inl h
        · exact .inl h
    · exact .inr (.inl (List.mem_cons_of_mem _ h))
    · exact .inr (.inr (List.mem_cons_of_mem _ h))

theorem subset_pushPartners {current : TermId} {seen stack : List TermId} :
    stack ⊆ pushPartners current seen equalities stack := by
  induction equalities generalizing stack with
  | nil => exact List.Subset.refl _
  | cons p rest ih =>
    rw [pushPartners, List.foldl_cons]
    refine List.Subset.trans ?_ ih
    dsimp only
    split
    · exact List.subset_cons_self _ _
    · split
      · exact List.subset_cons_self _ _
      · exact List.Subset.refl _

/-- Whatever the current term is equated with is put on the stack, unless it has been seen. -/
theorem partner_mem {current x : TermId} {seen stack : List TermId} (hcurrent : current ∈ seen)
    (h : (current, x) ∈ equalities ∨ (x, current) ∈ equalities) (hx : x ∉ seen) :
    x ∈ pushPartners current seen equalities stack := by
  have hne : x ≠ current := fun heq => hx (heq ▸ hcurrent)
  induction equalities generalizing stack with
  | nil => simp at h
  | cons p rest ih =>
    rw [pushPartners, List.foldl_cons]
    rw [List.mem_cons, List.mem_cons] at h
    have hhere : p = (current, x) ∨ p = (x, current) →
        x ∈ pushPartners current seen rest
          (if p.1 = current ∧ p.2 ∉ seen then p.2 :: stack
          else if p.2 = current ∧ p.1 ∉ seen then p.1 :: stack else stack) := by
      rintro (rfl | rfl)
      · exact subset_pushPartners (by simp [hx])
      · exact subset_pushPartners (by simp [hx, hne])
    rcases h with (h | h) | (h | h)
    · exact hhere (.inl h.symm)
    · exact ih (.inl h)
    · exact hhere (.inr h.symm)
    · exact ih (.inr h)

/-- The terms that a chain of equations connects. -/
def Linked (equalities : List BvPair) : TermId → TermId → Prop :=
  Relation.EqvGen fun x y => (x, y) ∈ equalities

theorem Linked.least {R : TermId → TermId → Prop} (hR : Equivalence R)
    (hequalities : ∀ p ∈ equalities, R p.1 p.2) (h : Linked equalities a b) : R a b := by
  induction h with
  | rel x y hxy => exact hequalities _ hxy
  | refl x => exact hR.refl x
  | symm x y _ ih => exact hR.symm ih
  | trans x y z _ _ ih ih' => exact hR.trans ih ih'

/-- A set that holds with a term all its partners holds everything linked to the term. -/
theorem Linked.mem_closed {seen : List TermId} (h : Linked equalities a b)
    (hclosed : ∀ x ∈ seen, ∀ y, (x, y) ∈ equalities ∨ (y, x) ∈ equalities → y ∈ seen) :
    a ∈ seen ↔ b ∈ seen := by
  refine h.least (R := fun x y => x ∈ seen ↔ y ∈ seen)
    ⟨fun _ => Iff.rfl, fun h => h.symm, fun h h' => h.trans h'⟩ fun p hp => ?_
  exact ⟨fun hx => hclosed _ hx _ (.inl hp), fun hy => hclosed _ hy _ (.inr hp)⟩

/-- The search ends: a term is taken on only once, and what it puts on the stack is paid for then.
It has come to everything that a seen term is equated with, and finds what is linked to its start. -/
theorem searchEqualities_answers (terms : List TermId)
    (hterms : ∀ p ∈ equalities, p.1 ∈ terms ∧ p.2 ∈ terms) :
    ∀ {rounds : Nat} {stack seen : List TermId}, (∀ x ∈ stack, x ∈ terms ∧ Linked equalities a x) →
      (a ∈ seen ∨ a ∈ stack) → (∀ x ∈ seen, x ≠ b ∧ ∀ y,
        (x, y) ∈ equalities ∨ (y, x) ∈ equalities → y ∈ seen ∨ y ∈ stack) →
      stack.length + (terms.filter (· ∉ seen)).length * (equalities.length + 1) < rounds →
      Answers (searchEqualities equalities b rounds stack seen) fun found =>
        found = true ↔ Linked equalities a b := by
  intro rounds
  induction rounds with
  | zero =>
    intro stack seen _ _ _ hlt
    exact absurd hlt (Nat.not_lt_zero _)
  | succ rounds ih =>
    intro stack seen hstack hstart hseen hlt
    cases stack with
    | nil =>
      refine answers_ok (iff_of_false Bool.false_ne_true fun hlinked => ?_)
      have hclosed : ∀ x ∈ seen, ∀ y, (x, y) ∈ equalities ∨ (y, x) ∈ equalities → y ∈ seen :=
        fun x hx y hy => ((hseen x hx).2 y hy).resolve_right List.not_mem_nil
      have ha := hstart.resolve_right List.not_mem_nil
      exact (hseen b ((hlinked.mem_closed hclosed).mp ha)).1 rfl
    | cons current stack =>
      rw [List.forall_mem_cons] at hstack
      obtain ⟨⟨hmem, hcurrent⟩, hstack⟩ := hstack
      rw [List.length_cons] at hlt
      rw [searchEqualities]
      split
      · rename_i h
        exact answers_ok (iff_of_true rfl (h ▸ hcurrent))
      · rename_i hne
        split
        · rename_i hmemSeen
          have hskip : ∀ {y}, y ∈ seen ∨ y ∈ current :: stack → y ∈ seen ∨ y ∈ stack := by
            rintro y (hy | hy)
            · exact .inl hy
            · rcases List.mem_cons.mp hy with rfl | hy
              · exact .inl hmemSeen
              · exact .inr hy
          exact ih hstack (hskip hstart) (fun x hx => ⟨(hseen x hx).1, fun y hy =>
            hskip ((hseen x hx).2 y hy)⟩) (by omega)
        · rename_i hunseen
          have hmove : ∀ {y}, y ∈ seen ∨ y ∈ current :: stack → y ∈ current :: seen ∨
              y ∈ pushPartners current (current :: seen) equalities stack := by
            rintro y (hy | hy)
            · exact .inl (List.mem_cons_of_mem _ hy)
            · rcases List.mem_cons.mp hy with rfl | hy
              · exact .inl List.mem_cons_self
              · exact .inr (subset_pushPartners hy)
          refine ih (fun x hx => ?_) (hmove hstart) (List.forall_mem_cons.mpr ⟨⟨hne, ?_⟩, ?_⟩) ?_
          · rcases mem_pushPartners hx with hx | hx | hx
            · exact hstack x hx
            · exact ⟨(hterms _ hx).2, hcurrent.trans _ _ _ (.rel _ _ hx)⟩
            · exact ⟨(hterms _ hx).1, hcurrent.trans _ _ _ (.symm _ _ (.rel _ _ hx))⟩
          · intro y hy
            by_cases hyseen : y ∈ current :: seen
            · exact .inl hyseen
            · exact .inr (partner_mem List.mem_cons_self hy hyseen)
          · exact fun x hx => ⟨(hseen x hx).1, fun y hy => hmove ((hseen x hx).2 y hy)⟩
          · have hfewer : (terms.filter (· ∉ current :: seen)).length + 1 ≤
                (terms.filter (· ∉ seen)).length := by
              have hsub : terms.filter (· ∉ current :: seen) =
                  (terms.filter (· ∉ seen)).filter (· ≠ current) := by
                rw [List.filter_filter]
                refine List.filter_congr fun x _ => ?_
                simp [not_or]
              rw [hsub]
              exact List.length_filter_lt_length_iff_exists.mpr
                ⟨current, by simp [hmem, hunseen], by simp⟩
            have hpush : (pushPartners current (current :: seen) equalities stack).length ≤
                stack.length + equalities.length := length_pushPartners
            have hpay := Nat.mul_le_mul_right (equalities.length + 1) hfewer
            rw [Nat.add_mul] at hpay
            omega

/-- **The search decides what the equations link.** -/
theorem equivalentUnderEqualities_answers (a b : TermId) (equalities : List BvPair) :
    Answers (equivalentUnderEqualities a b equalities) fun found =>
      found = true ↔ Linked equalities a b := by
  unfold equivalentUnderEqualities
  split
  · rename_i h
    exact answers_ok (iff_of_true rfl (h ▸ .refl a))
  · refine searchEqualities_answers (a :: equalities.flatMap fun p => [p.1, p.2])
      ?_ (by simpa using .refl a) (.inr (List.mem_singleton.mpr rfl)) (by simp) ?_
    · intro p hp
      constructor
      · exact List.mem_cons_of_mem _ (List.mem_flatMap.mpr ⟨p, hp, by simp⟩)
      · exact List.mem_cons_of_mem _ (List.mem_flatMap.mpr ⟨p, hp, by simp⟩)
    · have hlen : (a :: equalities.flatMap fun p => [p.1, p.2]).length =
          2 * equalities.length + 1 := by
        simp [List.length_flatMap, Nat.mul_comm]
      rw [List.filter_eq_self.mpr (by simp), hlen, List.length_singleton]
      omega

theorem Linked.equalBv (hs : q.arena.Inv) (heq : ∀ p ∈ equalities, EqualBv q p.1 p.2)
    (h : Linked equalities a b) (ha : q.arena.IsBv a w) : EqualBv q a b :=
  (h.least (equalTerms_equivalence q) fun p hp => (heq p hp).equalTerms hs).equalBv hs ha

/-- The first equation of a term is an equation of it. -/
theorem equalityPartner_some (heq : ∀ p ∈ equalities, EqualBv q p.1 p.2)
    (h : equalityPartner a equalities = some b) : EqualBv q a b := by
  obtain ⟨p, hp, h⟩ := List.exists_of_findSome?_eq_some h
  dsimp only at h
  split at h
  · rename_i hp'
    obtain rfl := Option.some.inj h
    exact hp' ▸ heq p hp
  · rw [Option.ite_none_right_eq_some, Option.some.injEq] at h
    obtain ⟨rfl, rfl⟩ := h
    exact (heq p hp).symm

/-! ## Clearing bits -/

/-- A term that is equal to a constant, or is one. -/
theorem isAlias_true {isConst : Arena → TermId → Result Bool} {x : BitVec w}
    (hconst : ∀ t, q.arena.IsBv t w → isConst q.arena t = ok true → ∀ ρ, q.arena.bv ρ t w = x)
    (heq : ∀ p ∈ equalities, EqualBv q p.1 p.2) (ht : q.arena.IsBv t w)
    (h : isAlias isConst q.arena t equalities = ok true) (hρ : Asserted q ρ) :
    q.arena.bv ρ t w = x := by
  rcases true_of_or h with h | h
  · exact hconst t ht h ρ
  · obtain ⟨p, hp, h⟩ := exists_of_anyM h
    rcases true_of_or h with h | h
    · obtain ⟨hpt, hc⟩ := and_eq_true.mp h
      obtain rfl := beq_iff_eq.mp (Outcome.ok.inj hpt)
      obtain ⟨hb, hval⟩ := (heq p hp).of_width ht
      rw [hval ρ hρ, hconst p.2 hb hc]
    · obtain ⟨hpt, hc⟩ := and_eq_true.mp h
      obtain rfl := beq_iff_eq.mp (Outcome.ok.inj hpt)
      obtain ⟨hb, hval⟩ := (heq p hp).symm.of_width ht
      rw [hval ρ hρ, hconst p.1 hb hc]

section Kernighan

variable (hq : q.WellFormed) (heq : ∀ p ∈ equalities, EqualBv q p.1 p.2)
include hq heq

theorem isZeroAlias_true (ht : q.arena.IsBv t w) (h : isZeroAlias q.arena t equalities = ok true)
    (hρ : Asserted q ρ) : q.arena.bv ρ t w = 0 :=
  isAlias_true (fun _ ht h ρ => isZeroBvConst_true hq.arena ht h ρ) heq ht h hρ

theorem isOneAlias_true (ht : q.arena.IsBv t w) (h : isOneAlias q.arena t equalities = ok true)
    (hρ : Asserted q ρ) : q.arena.bv ρ t w = 1 :=
  isAlias_true (fun _ ht h ρ => isOneBvConst_true hq.arena ht h ρ) heq ht h hρ

theorem isMinusOneAlias_true {input : TermId} (ht : q.arena.IsBv t w)
    (h : isMinusOneAlias q.arena t input equalities = ok true) (hρ : Asserted q ρ) :
    q.arena.bv ρ t w = q.arena.bv ρ input w - 1 := by
  obtain ⟨a, b, hk, h⟩ := let_bvSub h
  obtain ⟨ha, hone⟩ := and_eq_true.mp h
  obtain rfl := beq_iff_eq.mp (Outcome.ok.inj ha)
  obtain ⟨-, hb, hval⟩ := Arena.bv_bvSub (ρ := ρ) hq.arena hk ht
  rw [hval, isOneAlias_true hq heq hb hone hρ]

/-- A condition that asks whether the input is zero. -/
theorem bvEqZeroInput_some {input : TermId} (hi : q.arena.IsBv input w)
    (h : bvEqZeroInput q.arena t equalities = ok (some input)) (hρ : Asserted q ρ) :
    q.arena.IsTrue ρ t ↔ q.arena.bv ρ input w = 0 := by
  have hs := hq.arena
  obtain ⟨a, b, hpair, h⟩ := let_pair h
  have hk := bvEqPair_eq.mp hpair
  obtain ⟨v, ha, hb⟩ := hs.bvEq_sort hk
  obtain ⟨found, hfound, h⟩ := bind_eq_ok.mp h
  cases found with
  | true =>
    obtain rfl := Option.some.inj (Outcome.ok.inj h)
    obtain rfl := hi.inj hb
    rw [(Arena.isTrue_bvEq_bv hs hk ha).2, isZeroAlias_true hq heq ha hfound hρ, eq_comm]
  | false =>
    obtain ⟨found, hfound, h⟩ := bind_eq_ok.mp h
    cases found with
    | false => cases h
    | true =>
      obtain rfl := Option.some.inj (Outcome.ok.inj h)
      obtain rfl := hi.inj ha
      rw [(Arena.isTrue_bvEq_bv hs hk ha).2, isZeroAlias_true hq heq hb hfound hρ]

theorem matchesKernighanStep_true {input : TermId} (ht : q.arena.IsBv t w)
    (h : matchesKernighanStep q.arena t input equalities = ok true) (hρ : Asserted q ρ) :
    q.arena.bv ρ t w = clearLowest (q.arena.bv ρ input w) := by
  have hs := hq.arena
  obtain ⟨cond, thenValue, elseValue, hk, h⟩ := let_bvIte h
  obtain ⟨hcond, h⟩ := of_unless h
  obtain ⟨hthen, h⟩ := of_if h
  obtain rfl := not_not.mp hthen
  obtain ⟨-, hi, helse⟩ := hs.bvIte_sort hk ht
  obtain ⟨a, b, hparts, h⟩ := let_pair h
  obtain ⟨ha, hb, hand⟩ := Arena.bv_bvAnd (ρ := ρ) hs (bvAndParts_eq.mp hparts) helse
  obtain ⟨o, ho, hcond⟩ := bind_eq_ok.mp hcond
  obtain rfl := beq_iff_eq.mp (Outcome.ok.inj hcond)
  have hclear : q.arena.bv ρ elseValue w = clearLowest (q.arena.bv ρ thenValue w) := by
    rw [hand]
    rcases true_of_or h with h | h
    · obtain ⟨heqa, hminus⟩ := and_eq_true.mp h
      obtain rfl := beq_iff_eq.mp (Outcome.ok.inj heqa)
      rw [isMinusOneAlias_true hq heq hb hminus hρ, clearLowest]
    · obtain ⟨heqb, hminus⟩ := and_eq_true.mp h
      obtain rfl := beq_iff_eq.mp (Outcome.ok.inj heqb)
      rw [isMinusOneAlias_true hq heq ha hminus hρ, BitVec.and_comm, clearLowest]
  rw [Arena.bv_bvIte hs hk, hclear]
  split
  · rename_i hcond
    rw [(bvEqZeroInput_some hq heq hi ho hρ).mp hcond, clearLowest_zero]
  · rfl

theorem kernighanCountLeaf_some {input : TermId} (hi : q.arena.IsBv input w)
    (ht : q.arena.IsBv t w) (h : kernighanCountLeaf q.arena t equalities = ok (some input))
    (hρ : Asserted q ρ) :
    q.arena.bv ρ t w = if q.arena.bv ρ input w = 0 then 0 else 1 := by
  have hs := hq.arena
  obtain ⟨cond, thenValue, elseValue, hk, h⟩ := let_bvIte h
  obtain ⟨-, hthen, helse⟩ := hs.bvIte_sort hk ht
  obtain ⟨hzero, h⟩ := of_unless h
  obtain ⟨hone, h⟩ := of_unless h
  rw [Arena.bv_bvIte hs hk, isZeroAlias_true hq heq hthen hzero hρ,
    isOneAlias_true hq heq helse hone hρ]
  simp only [bvEqZeroInput_some hq heq hi h hρ]

/-- The second program counts the one bits of the first word of its chain, if the chain is as long
as the words are wide. -/
theorem matchesKernighanPopcount_true {chain : List TermId} (hlen : chain.length = n + 1)
    (hw : w ≤ n) (hchain : ∀ x ∈ chain, q.arena.IsBv x w)
    (hstep : ∀ i < n, kernighanStepAt q.arena equalities chain i = ok true) (ht : q.arena.IsBv t w)
    (h : matchesKernighanPopcount q.arena t (chain.take n) equalities = ok true)
    (hρ : Asserted q ρ) {x : TermId} (hx : chain[0]? = some x) :
    q.arena.bv ρ t w = (q.arena.bv ρ x w).cpop := by
  have hs := hq.arena
  obtain ⟨leaves, hleaves, h⟩ := bind_eq_ok.mp h
  obtain ⟨hsorts, hsum⟩ := collectBvAddTerms_eq hs ht hleaves
  obtain ⟨-, h⟩ := of_if h
  rw [List.length_take_of_le (by omega)] at h
  let y (i : Nat) : BitVec w := q.arena.bv ρ (chain.getD i x) w
  have hy : ∀ i < n, y (i + 1) = clearLowest (y i) := by
    intro i hi
    obtain ⟨next, hnext, h⟩ := bind_eq_ok.mp (hstep i hi)
    rw [expect_eq_ok] at hnext
    cases hdef : equalityPartner next equalities with
    | none =>
      rw [hdef] at h
      cases h
    | some definition =>
      rw [hdef] at h
      obtain ⟨input, hinput, h⟩ := bind_eq_ok.mp h
      rw [expect_eq_ok] at hinput
      obtain ⟨hd, hval⟩ := (equalityPartner_some heq hdef).of_width
        (hchain next (List.mem_of_getElem? hnext))
      have hclear := matchesKernighanStep_true hq heq hd h hρ
      dsimp only [y]
      rw [List.getD_eq_getElem?_getD, List.getD_eq_getElem?_getD, hnext, hinput]
      exact (hval ρ hρ).trans hclear
  have hcount : ∀ leaf ∈ leaves, ∀ i < n, (do
      let some input ← kernighanCountLeaf q.arena leaf equalities | return none
      return (chain.take n).findIdx? (· == input)) = ok (some i) →
      q.arena.bv ρ leaf w = ((if y i = 0 then 0 else 1 : ℕ) : BitVec w) := by
    intro leaf hleaf i hi hindex
    obtain ⟨input, hinput, hindex⟩ := let_term hindex
    obtain ⟨hlt, hat, -⟩ := List.findIdx?_eq_some_iff_getElem.mp (Outcome.ok.inj hindex)
    have hinput' : chain.getD i x = input := by
      rw [List.getElem_take, beq_iff_eq] at hat
      rw [List.getD_eq_getElem _ _ (by omega), hat]
    have hisBv : q.arena.IsBv input w := by
      rw [← hinput', List.getD_eq_getElem _ _ (by omega)]
      exact hchain _ (List.getElem_mem _)
    rw [kernighanCountLeaf_some hq heq hisBv (hsorts leaf hleaf) hinput hρ, ← hinput']
    dsimp only [y]
    split <;> simp
  have hfirst : y 0 = q.arena.bv ρ x w := by
    dsimp only [y]
    rw [List.getD_eq_getElem?_getD, hx]
    rfl
  rw [hsum, sum_of_markSeen _ (by simp) hcount h, ← Nat.cast_sum, sum_clearLowest hy, hfirst, cpop_eq]
  exact popcount_le.trans hw

end Kernighan

/-! ## The pass -/

theorem bvVarByName_some {name : String} (hs : s.Inv) (h : bvVarByName s name w = some t) :
    s.IsBv t w := by
  obtain ⟨hlt, hp, -⟩ := List.findIdx?_eq_some_iff_getElem.mp h
  have hn := List.getElem?_eq_getElem hlt
  generalize s.nodes[t] = n at hp hn
  have hk := Arena.kindAt_of_node hn
  split at hp
  · rename_i hkind
    rw [hkind] at hk
    simp only [Bool.and_eq_true, beq_iff_eq] at hp
    obtain ⟨σ, hσ, rfl⟩ := hs.hasSort hk
    exact hp.1 ▸ hσ
  · cases hp

theorem forall₂_of_mapM {α β : Type} {f : α → Option β} {xs : List α} {ys : List β}
    (h : xs.mapM f = some ys) : List.Forall₂ (fun x y => f x = some y) xs ys := by
  induction xs generalizing ys with
  | nil =>
    obtain rfl := Option.some.inj h
    exact .nil
  | cons x xs ih =>
    rw [List.mapM_cons] at h
    simp only [Option.bind_eq_bind, Option.bind_eq_some_iff, Option.pure_def,
      Option.some.injEq] at h
    obtain ⟨y, hy, ys, hys, rfl⟩ := h
    exact .cons hy (ih hys)

theorem chain_of_names (hs : s.Inv) {name : Nat → String} {chain : List TermId}
    (h : (List.range (n + 1)).mapM (fun index => bvVarByName s (name index) w) = some chain) :
    (∀ word ∈ chain, s.IsBv word w) ∧ chain.length = n + 1 ∧
      ∃ x, chain[0]? = some x ∧ bvVarByName s (name 0) w = some x := by
  have hall := forall₂_of_mapM h
  refine ⟨fun word hword => ?_, by rw [← hall.length_eq, List.length_range], ?_⟩
  · obtain ⟨i, -, hi⟩ := exists_of_forall₂ hall word hword
    exact bvVarByName_some hs hi
  · rw [List.range_succ_eq_map] at hall
    cases hall with
    | cons hx _ => exact ⟨_, rfl, hx⟩

/-- The two programs count the one bits of the same word, so a query that denies that they end with
the same number cannot be satisfied. -/
theorem yurichev_popcount_is_sound {q : Query} (hq : q.WellFormed) :
    (∀ term input w, q.arena.IsBv term w → w ≤ 64 →
      matchesNaivePopcount q.arena term input w = ok true →
        ∀ ρ, q.arena.bv ρ term w = (q.arena.bv ρ input w).cpop) ∧
    (∀ equalities chain n term x w, (∀ p ∈ equalities, EqualBv q p.1 p.2) →
      chain.length = n + 1 → w ≤ n → (∀ word ∈ chain, q.arena.IsBv word w) →
      (∀ i < n, kernighanStepAt q.arena equalities chain i = ok true) → q.arena.IsBv term w →
      matchesKernighanPopcount q.arena term (chain.take n) equalities = ok true →
      chain[0]? = some x →
        ∀ ρ, Asserted q ρ → q.arena.bv ρ term w = (q.arena.bv ρ x w).cpop) ∧
    (hasYurichevPopcountContradiction q = ok true → ¬∃ ρ, Asserted q ρ) := by
  have hs := hq.arena
  refine ⟨fun term input w ht hw h => matchesNaivePopcount_true hs ht hw h,
    fun equalities chain n term x w heq hlen hw hchain hstep ht h hx ρ hρ =>
      matchesKernighanPopcount_true hq heq hlen hw hchain hstep ht h hρ hx, ?_⟩
  rintro h ⟨ρ, hρ⟩
  obtain ⟨-, h⟩ := of_if h
  split at h
  case h_2 => cases h
  rename_i x hx
  split at h
  case h_2 => cases h
  rename_i naiveOut hnaiveOut
  split at h
  case h_2 => cases h
  rename_i kernOut hkernOut
  obtain ⟨⟨equalities, disequalities⟩, hcollect, h⟩ := bind_eq_ok.mp h
  obtain ⟨heq, hne⟩ := (bvEqualitiesAndDisequalities_answers hq).of_eq hcollect
  dsimp only at h heq hne
  split at h
  case h_2 => cases h
  rename_i kernX0 hkernX0
  obtain ⟨hsame, h⟩ := of_unless h
  have hx64 := bvVarByName_some hs hx
  have hinput := ((((equivalentUnderEqualities_answers _ _ _).of_eq hsame).mp rfl).equalBv hs heq
    hx64).of_width hx64
  obtain ⟨hany, h⟩ := of_if h
  have hdistinct := distinct_of_any hne (by simpa using hany)
  split at h
  case h_2 => cases h
  rename_i naiveExpr hnaiveExpr
  obtain ⟨hnaive, h⟩ := of_unless h
  split at h
  case h_2 => cases h
  rename_i chain hchain
  obtain ⟨hsteps, h⟩ := of_unless h
  split at h
  case h_2 => cases h
  rename_i kernExpr hkernExpr
  obtain ⟨hsorts, hlen, first, hfirst, hname⟩ := chain_of_names hs hchain
  obtain ⟨hdefNaive, hvalNaive⟩ :=
    (equalityPartner_some heq hnaiveExpr).of_width (bvVarByName_some hs hnaiveOut)
  obtain ⟨hdefKern, hvalKern⟩ :=
    (equalityPartner_some heq hkernExpr).of_width (bvVarByName_some hs hkernOut)
  have hone := matchesNaivePopcount_true hs hdefNaive (Nat.le_refl 64) hnaive ρ
  have hother := matchesKernighanPopcount_true hq heq hlen (Nat.le_refl 64) hsorts
    (fun i hi => forall_of_allM hsteps i (List.mem_range.mpr hi)) hdefKern h hρ hfirst
  obtain rfl : kernX0 = first := Option.some.inj (hkernX0.symm.trans hname)
  refine ((hdistinct.of_width (bvVarByName_some hs hnaiveOut)).2 ρ hρ) ?_
  calc q.arena.bv ρ naiveOut 64 = (q.arena.bv ρ x 64).cpop := (hvalNaive ρ hρ).trans hone
    _ = (q.arena.bv ρ kernX0 64).cpop := by rw [hinput.2 ρ hρ]
    _ = q.arena.bv ρ kernOut 64 := ((hvalKern ρ hρ).trans hother).symm

/-- Both programs, for a word of two bits and with a variable for zero. -/
def shortPopcounts : Query := .asserting [
    ⟨.bvVar 2 "x" (some 0), .bv 2⟩,
    ⟨.bvConst 2 [1], .bv 2⟩,
    ⟨.bvAnd 0 1, .bv 2⟩,
    ⟨.bvLShr 0 1, .bv 2⟩,
    ⟨.bvAnd 3 1, .bv 2⟩,
    ⟨.bvAdd 2 4, .bv 2⟩,
    ⟨.bvVar 2 "y" (some 1), .bv 2⟩,
    ⟨.bvVar 2 "z" (some 2), .bv 2⟩,
    ⟨.bvConst 2 [0], .bv 2⟩,
    ⟨.bvVar 2 "zero" (some 3), .bv 2⟩,
    ⟨.bvEq 0 9, .bool⟩,
    ⟨.bvSub 0 1, .bv 2⟩,
    ⟨.bvAnd 0 11, .bv 2⟩,
    ⟨.bvIte 10 0 12, .bv 2⟩,
    ⟨.bvEq 6 13, .bool⟩,
    ⟨.bvEq 6 9, .bool⟩,
    ⟨.bvSub 6 1, .bv 2⟩,
    ⟨.bvAnd 16 6, .bv 2⟩,
    ⟨.bvIte 15 6 17, .bv 2⟩,
    ⟨.bvEq 18 7, .bool⟩,
    ⟨.bvIte 10 9 1, .bv 2⟩,
    ⟨.bvIte 15 9 1, .bv 2⟩,
    ⟨.bvAdd 21 20, .bv 2⟩,
    ⟨.bvEq 9 8, .bool⟩] [14, 19, 23]

theorem yurichev_popcount_of_short : (∃ ρ, Asserted shortPopcounts ρ) ∧
    ∀ ρ, Asserted shortPopcounts ρ →
      shortPopcounts.arena.bv ρ 5 2 = shortPopcounts.arena.bv ρ 22 2 := by
  have hq : shortPopcounts.WellFormed :=
    Query.wellFormed_of_check (by decide) (by decide)
  refine ⟨⟨⟨fun t => if t = 0 then 3 else if t = 6 then 2 else 0, fun _ => false⟩, ?_⟩,
    fun ρ hρ => ?_⟩
  · unfold Asserted
    decide
  · have hcollect : bvEqualitiesAndDisequalities shortPopcounts =
        ok ([(6, 13), (18, 7), (9, 8)], []) := by decide
    have heq := ((bvEqualitiesAndDisequalities_answers hq).of_eq hcollect).1
    obtain ⟨hnaive, hkern, -⟩ := yurichev_popcount_is_sound hq
    rw [hnaive 5 0 2 (by decide) (by decide) (by decide) ρ]
    exact (hkern _ [0, 6, 7] 2 22 0 2 heq rfl (by decide)
      (by simp only [Arena.IsBv]; decide) (by decide) (by decide)
      (by decide) rfl ρ hρ).symm

end Shortcuts
end Qfbv
end SmtServer
