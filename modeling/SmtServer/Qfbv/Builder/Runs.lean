import SmtServer.Qfbv.Builder.Typed

/-!
# What holds of every builder

`Inv` is the representation invariant of a builder, and every operation keeps it (`run_keeps`), also
one that fails: so it holds after any sequence of calls (`Reachable.inv`). An operation only
ever adds to the arena, and one that fails leaves everything else alone.

What a method makes in a reachable builder is said by `Gives`: a term of the sort and the value that
SMT-LIB prescribes, in an arena where every term that was there still has its value.
-/

namespace SmtServer
namespace Qfbv

open Lib Outcome Bytes
open Lib.Smt (Value)

namespace Builder

variable {b b' : Builder} {t x y : TermId} {w v : Nat} {σ : TermSort}

/-! ## The invariant -/

/-- Every variable is allowed. -/
def AnyVar (_ : NodeKind) : Prop := True

theorem varsIn_any (op : TermOp) : op.VarsIn AnyVar := by
  cases op <;> trivial

structure Inv (b : Builder) : Prop where
  built : Built AnyVar b.arena
  assertions : ∀ a ∈ b.assertions, b.arena.sortAt a.root = some .bool
  assumptions : ∀ t ∈ b.assumptions, b.arena.sortAt t = some .bool
  ascending : b.scopes.Pairwise (· ≤ ·)
  scopes_le : ∀ mark ∈ b.scopes, mark ≤ b.assertions.length

theorem inv_new : new.Inv :=
  ⟨built_empty, nofun, nofun, .nil, nofun⟩

/-- Everything but the arena is as it was. -/
structure SameRest (b b' : Builder) : Prop where
  assertions : b'.assertions = b.assertions
  assumptions : b'.assumptions = b.assumptions
  scopes : b'.scopes = b.scopes

/-- Nothing that the invariant speaks of has changed. -/
theorem Inv.of_same (hb : b.Inv) (harena : b'.arena = b.arena) (h : SameRest b b') : b'.Inv := by
  refine ⟨harena ▸ hb.built, ?_, ?_, h.scopes ▸ hb.ascending, ?_⟩
  · rw [h.assertions, harena]
    exact hb.assertions
  · rw [h.assumptions, harena]
    exact hb.assumptions
  · rw [h.scopes, h.assertions]
    exact hb.scopes_le

theorem after_cases {check : Result Unit} (b b' : Builder) (hsafe : Safe check) :
    (check = ok () ∧ b.after check b' = (ok (), b')) ∨
      ∃ e, check = err e ∧ b.after check b' = (err e, b) := by
  cases check with
  | ok _ => exact .inl ⟨rfl, rfl⟩
  | err e => exact .inr ⟨e, rfl, rfl⟩
  | panic => exact absurd hsafe not_safe_panic

/-- What a call may leave behind. -/
structure Keeps (b : Builder) (r : Result Unit × Builder) : Prop where
  safe : Safe r.1
  inv : r.2.Inv
  grows : b.arena ≤ r.2.arena
  rest : ∀ e, r.1 = err e → SameRest b r.2

theorem Keeps.of_ok (h : b'.Inv) (harena : b'.arena = b.arena) : Keeps b (ok (), b') :=
  ⟨safe_ok (), h, harena ▸ le_refl b.arena, nofun⟩

theorem Keeps.of_err {e : Error} (hb : b.Inv) : Keeps b (err e, b) :=
  ⟨safe_err e, hb, le_refl b.arena, fun _ _ => ⟨rfl, rfl, rfl⟩⟩

theorem keeps_after {check : Result Unit} (hb : b.Inv) (hsafe : Safe check)
    (h : check = ok () → b'.Inv) (harena : b'.arena = b.arena) : Keeps b (b.after check b') := by
  rcases after_cases b b' hsafe with ⟨hok, hrun⟩ | ⟨e, -, hrun⟩
  · rw [hrun]
    exact .of_ok (h hok) harena
  · rw [hrun]
    exact .of_err hb

theorem Inv.assert {a : Assertion} (hb : b.Inv) (h : b.arena.sortAt a.root = some .bool) :
    Inv { b with assertions := b.assertions ++ [a] } := by
  refine ⟨hb.built, ?_, hb.assumptions, hb.ascending, ?_⟩
  · intro c hc
    rcases List.mem_append.mp hc with hc | hc
    · exact hb.assertions c hc
    · rwa [List.mem_singleton.mp hc]
  · intro mark hmark
    rw [List.length_append]
    exact Nat.le_add_right_of_le (hb.scopes_le mark hmark)

theorem Inv.assume (hb : b.Inv) (h : b.arena.sortAt t = some .bool) :
    Inv { b with assumptions := b.assumptions ++ [t] } := by
  refine ⟨hb.built, hb.assertions, ?_, hb.ascending, hb.scopes_le⟩
  intro u hu
  rcases List.mem_append.mp hu with hu | hu
  · exact hb.assumptions u hu
  · rwa [List.mem_singleton.mp hu]

theorem Inv.push (hb : b.Inv) : b.push.Inv := by
  refine ⟨hb.built, hb.assertions, hb.assumptions, ?_, ?_⟩
  · refine List.pairwise_append.mpr ⟨hb.ascending, List.pairwise_singleton _ _, ?_⟩
    intro mark hmark len hlen
    rw [List.mem_singleton.mp hlen]
    exact hb.scopes_le mark hmark
  · intro mark hmark
    rcases List.mem_append.mp hmark with hmark | hmark
    · exact hb.scopes_le mark hmark
    · exact (List.mem_singleton.mp hmark).le

/-- The marks below the one that is popped are at most that one. -/
theorem Inv.pop {len : Nat} (hb : b.Inv) (h : b.scopes.getLast? = some len) :
    Inv { b with scopes := b.scopes.dropLast, assertions := b.assertions.take len } := by
  obtain ⟨marks, hmarks⟩ := List.getLast?_eq_some_iff.mp h
  have hascending := hb.ascending
  rw [hmarks] at hascending
  obtain ⟨hbelow, -, hlast⟩ := List.pairwise_append.mp hascending
  refine ⟨hb.built, fun a ha => hb.assertions a (List.mem_of_mem_take ha), hb.assumptions, ?_, ?_⟩
  · rwa [hmarks, List.dropLast_concat]
  · intro mark hmark
    rw [hmarks, List.dropLast_concat] at hmark
    have hmem : len ∈ b.scopes := hmarks ▸ List.mem_append_right _ (List.mem_singleton_self len)
    rw [List.length_take, Nat.min_eq_left (hb.scopes_le len hmem)]
    exact hlast mark hmark len (List.mem_singleton_self len)

theorem Inv.grow {s : Arena} (hb : b.Inv) (hle : b.arena ≤ s) (hs : Built AnyVar s) :
    Inv { b with arena := s } :=
  ⟨hs, fun a ha => Arena.sortAt_mono hle (hb.assertions a ha),
    fun t ht => Arena.sortAt_mono hle (hb.assumptions t ht), hb.ascending, hb.scopes_le⟩

theorem expectBool_ok {l : String} (h : b.arena.expectBool t l = ok ()) :
    b.arena.sortAt t = some .bool := by
  by_contra hne
  obtain ⟨e, he⟩ := expectBool_err (l := l) hne
  rw [he] at h
  cases h

theorem safe_expectBool {l : String} : Safe (b.arena.expectBool t l) := by
  by_cases h : b.arena.sortAt t = some .bool
  · rw [Arena.expectBool_of_sort h]
    exact safe_ok ()
  · obtain ⟨e, he⟩ := expectBool_err (l := l) h
    rw [he]
    exact safe_err e

theorem safe_expectBv {l : String} : Safe (b.arena.expectBv t l) := by
  cases h : bvWidth? (b.arena.sortAt t) with
  | some w =>
    rw [Arena.expectBv_of_sort (bvWidth?_eq.mp h)]
    exact safe_ok w
  | none =>
    obtain ⟨e, he⟩ := expectBv_err (l := l) h
    rw [he]
    exact safe_err e

/-! ## Steps and runs -/

/-- **One call keeps the invariant, adds to the arena at most, and changes nothing else when it
fails.** -/
theorem run_keeps (hb : b.Inv) (op : BuilderOp) : Keeps b (op.run b) := by
  cases op with
  | term op =>
    rw [BuilderOp.run, make]
    rcases TermOp.build_cases hb.built (varsIn_any op) with
      ⟨t, s', σ, hrun, hle, hs', -, -⟩ | ⟨e, s', hrun, hle, hs'⟩
    · rw [hrun]
      exact ⟨safe_ok (), hb.grow hle hs', hle, nofun⟩
    · rw [hrun]
      exact ⟨safe_err e, hb.grow hle hs', hle, fun _ _ => ⟨rfl, rfl, rfl⟩⟩
  | setWantModel | setWantCore | addGetValue | setCommand =>
    exact .of_ok (hb.of_same rfl ⟨rfl, rfl, rfl⟩) rfl
  | setOptimization command target signed =>
    refine keeps_after hb ?_ (fun _ => hb.of_same rfl ⟨rfl, rfl, rfl⟩) rfl
    exact safe_ensure.bind fun _ _ => safe_expectBv.bind fun _ _ => safe_ok ()
  | push => exact .of_ok hb.push rfl
  | pop =>
    rw [BuilderOp.run, Builder.pop]
    split
    · exact .of_ok (hb.pop ‹_›) rfl
    · exact .of_err hb
  | assert root => exact keeps_after hb safe_expectBool (fun h => hb.assert (expectBool_ok h)) rfl
  | assertNamed name root =>
    exact keeps_after hb safe_expectBool (fun h => hb.assert (expectBool_ok h)) rfl
  | assume root => exact keeps_after hb safe_expectBool (fun h => hb.assume (expectBool_ok h)) rfl

theorem Inv.runs (hb : b.Inv) (ops : List BuilderOp) :
    (b.runs ops).Inv ∧ b.arena ≤ (b.runs ops).arena := by
  induction ops generalizing b with
  | nil => exact ⟨hb, le_refl b.arena⟩
  | cons op ops ih =>
    have hstep := run_keeps hb op
    have hrest := ih hstep.inv
    exact ⟨hrest.1, hstep.grows.trans hrest.2⟩

theorem Reachable.inv (h : b.Reachable) : b.Inv := by
  obtain ⟨ops, rfl⟩ := h
  exact (inv_new.runs ops).1

/-- What the claim of a well-formed builder comes to, without the shapes that rewriting relies on. -/
structure WellFormed (b : Builder) : Prop where
  children_lt : ∀ (t : TermId) (n : Node), b.arena.nodes[t]? = some n → ∀ c ∈ n.kind.children, c < t
  sorted : ∀ (t : TermId) (n : Node), b.arena.nodes[t]? = some n →
    n.kind.HasSort b.arena.sortAt n.sort
  constants : ∀ w bytes σ, (⟨.bvConst w bytes, σ⟩ : Node) ∈ b.arena.nodes →
    σ = .bv w ∧ bytes.length = divCeil8 w ∧ maskUnusedHighBits bytes w = bytes
  distinct : b.arena.nodes.Nodup
  assertions : ∀ a ∈ b.assertions, b.arena.sortAt a.root = some .bool
  assumptions : ∀ t ∈ b.assumptions, b.arena.sortAt t = some .bool
  ascending : b.scopes.Pairwise (· ≤ ·)
  scopes_le : ∀ mark ∈ b.scopes, mark ≤ b.assertions.length

theorem Inv.wellFormed (hb : b.Inv) : b.WellFormed where
  children_lt t n hn := hb.built.inv.ordered t n hn
  sorted := hb.built.inv.sorted
  constants w bytes σ hmem := by
    obtain ⟨t, hn⟩ := List.mem_iff_getElem?.mp hmem
    obtain ⟨hσ, hlen, hlt⟩ := hb.built.inv.sorted t _ hn
    exact ⟨hσ, hlen, (spells_of_lt hlen hlt).mask⟩
  distinct := hb.built.inv.nodup
  assertions := hb.assertions
  assumptions := hb.assumptions
  ascending := hb.ascending
  scopes_le := hb.scopes_le

/-- **The representation invariant of a builder holds after any sequence of calls; nodes keep their
ids; and a call that fails leaves the assertions, the assumptions and the scopes alone.** -/
theorem runs_wellFormed (ops more : List BuilderOp) (op : BuilderOp) :
    (new.runs ops).WellFormed ∧ (new.runs ops).arena ≤ (new.runs (ops ++ more)).arena ∧
      ∀ e, (op.run (new.runs ops)).1 = err e →
        SameRest (new.runs ops) (op.run (new.runs ops)).2 := by
  have hb := (inv_new.runs ops).1
  refine ⟨hb.wellFormed, ?_, (run_keeps hb op).rest⟩
  rw [show new.runs (ops ++ more) = (new.runs ops).runs more from List.foldl_append]
  exact (hb.runs more).2

/-! ## What rewriting preserves -/

/-- Every term that was there has the value that it had, under every assignment. -/
def Preserves (b b' : Builder) : Prop :=
  ∀ ρ, ∀ u < b.arena.nodes.length, b'.arena.value ρ u = b.arena.value ρ u

/-- The method makes a term of this sort and of this value, made from the values of other terms; it
fails only when the ids are used up. -/
def Gives (b : Builder) (m : ArenaM TermId) (σ : TermSort) (sem : (TermId → Value) → Value) : Prop :=
  match b.make m with
  | (.ok t, b') => b'.arena.sortAt t = some σ ∧ (∀ ρ, b'.arena.value ρ t = sem (b.arena.value ρ)) ∧
      Preserves b b'
  | (.err e, b') => e = Arena.full ∧ b'.arena.nodes.length = 2 ^ 32
  | (.panic, _) => False

/-- The method fails, and the builder is as it was. -/
def Refuses (b : Builder) (m : ArenaM TermId) : Prop := ∃ e, b.make m = (err e, b)

theorem preserves_of_le {s : Arena} (hle : b.arena ≤ s) : Preserves b { b with arena := s } := by
  intro ρ u hu
  obtain ⟨n, hn⟩ : ∃ n, b.arena.nodes[u]? = some n := ⟨_, List.getElem?_eq_getElem hu⟩
  exact Arena.value_mono hle (Arena.sortAt_eq_some.mpr ⟨n, hn, rfl⟩)

/-- Arguments that fit: a value that does not depend on the id of the result. -/
theorem Inv.gives {o : TermOp} {sem : (TermId → Value) → Value} (hb : b.Inv)
    (h : o.sortOf b.arena.sortAt = some σ) (hsem : ∀ ρ t look, o.sem ρ t look = sem look) :
    Gives b o.build σ sem := by
  rw [Gives, make]
  rcases (Spec.all fun ρ => TermOp.build_spec (ρ := ρ) (varsIn_any o) h).cases hb.built with
    ⟨t, s', hrun, hle, -, ht⟩ | ⟨s', hrun, -, -, hlen⟩
  · rw [hrun]
    exact ⟨(ht ⟨fun _ => 0, fun _ => false⟩).1, fun ρ => (ht ρ).2.trans (hsem ρ t _),
      preserves_of_le hle⟩
  · rw [hrun]
    exact ⟨rfl, hlen⟩

theorem Inv.refuses {o : TermOp} (hb : b.Inv) (h : o.sortOf b.arena.sortAt = none) :
    Refuses b o.build := by
  obtain ⟨e, he⟩ := TermOp.build_rejects hb.built.inv h
  exact ⟨e, by rw [make, he]⟩

/-- A builder with two variables of eight bits. -/
def twoVars : Builder :=
  new.runs [.term (.bvVarExternal "x" 8 none), .term (.bvVarExternal "y" 8 none)]

theorem twoVars_reachable : twoVars.Reachable := ⟨_, rfl⟩

theorem twoVars_sort : twoVars.arena.sortAt 0 = some (.bv 8) ∧
    twoVars.arena.sortAt 1 = some (.bv 8) := ⟨rfl, rfl⟩

/-- **Arithmetic rewriting preserves meaning.** -/
theorem arithmetic_sound (hb : b.Reachable) (hx : b.arena.sortAt x = some (.bv w))
    (hy : b.arena.sortAt y = some (.bv w)) :
    (∀ op : BinaryOp, Gives b (op.build x y) (.bv w) fun look => op.sem (look x) (look y)) ∧
      ∀ op : UnaryOp, Gives b (op.build x) (.bv w) fun look => op.sem (look x) := by
  constructor
  · intro op
    refine hb.inv.gives (o := .binary op x y) ?_ fun _ _ _ => rfl
    rw [TermOp.sortOf, sameWidth?_eq.mpr ⟨hx, hy⟩]
    rfl
  · intro op
    refine hb.inv.gives (o := .unary op x) ?_ fun _ _ _ => rfl
    rw [TermOp.sortOf, hx]
    rfl

theorem arithmetic_sound_twoVars :
    (∀ op : BinaryOp, Gives twoVars (op.build 0 1) (.bv 8) fun look => op.sem (look 0) (look 1)) ∧
      ∀ op : UnaryOp, Gives twoVars (op.build 0) (.bv 8) fun look => op.sem (look 0) :=
  arithmetic_sound twoVars_reachable twoVars_sort.1 twoVars_sort.2

/-- **Rewriting comparisons preserves meaning.** -/
theorem relation_sound (hb : b.Reachable) (hx : b.arena.sortAt x = some (.bv w))
    (hy : b.arena.sortAt y = some (.bv w)) (op : Relation) :
    Gives b (op.build x y) .bool fun look => op.sem (look x) (look y) := by
  refine hb.inv.gives (o := .relation op x y) ?_ fun _ _ _ => rfl
  rw [TermOp.sortOf, sameWidth?_eq.mpr ⟨hx, hy⟩]
  rfl

theorem relation_sound_twoVars :
    Gives twoVars (Relation.bvUge.build 0 1) .bool fun look => Smt.bvule (look 1) (look 0) :=
  relation_sound twoVars_reachable twoVars_sort.1 twoVars_sort.2 .bvUge

/-- The method gives that term under a condition on its arguments, and refuses otherwise. -/
def GivesIff (b : Builder) (fits : Prop) (m : ArenaM TermId) (σ : TermSort)
    (sem : (TermId → Value) → Value) : Prop :=
  (fits → Gives b m σ sem) ∧ (¬fits → Refuses b m)

theorem Inv.givesIff {o : TermOp} {fits : Prop} {sem : (TermId → Value) → Value} (hb : b.Inv)
    (hfits : fits → o.sortOf b.arena.sortAt = some σ)
    (hunfit : ¬fits → o.sortOf b.arena.sortAt = none)
    (hsem : ∀ ρ t look, o.sem ρ t look = sem look) : GivesIff b fits o.build σ sem :=
  ⟨fun h => hb.gives (hfits h) hsem, fun h => hb.refuses (hunfit h)⟩

/-- A width that a vector may have. -/
def IsWidth (w : Nat) : Prop := 1 ≤ w ∧ w ≤ 65536

theorem vectorSort_of_isWidth (h : IsWidth w) : vectorSort w = some (.bv w) := if_pos h

theorem vectorSort_of_not (h : ¬IsWidth w) : vectorSort w = none := if_neg h

/-- **Slicing, joining, extending, repeating and rotating: rewriting preserves meaning, and indices
and widths out of range are refused.** -/
theorem structural_sound (hb : b.Reachable) (hx : b.arena.sortAt x = some (.bv w))
    (hy : b.arena.sortAt y = some (.bv v)) :
    (∀ high low, GivesIff b (low ≤ high ∧ high < w) (bvExtract x high low) (.bv (high - low + 1))
      fun look => Smt.extract high low (look x)) ∧
    GivesIff b (IsWidth (w + v)) (bvConcat x y) (.bv (w + v))
      (fun look => Smt.concat (look x) (look y)) ∧
    (∀ extra, GivesIff b (IsWidth (w + extra)) (bvZext x extra) (.bv (w + extra))
      fun look => Smt.zeroExtend extra (look x)) ∧
    (∀ extra, GivesIff b (IsWidth (w + extra)) (bvSext x extra) (.bv (w + extra))
      fun look => Smt.signExtend extra (look x)) ∧
    (∀ count, GivesIff b (IsWidth (w * count)) (bvRepeat x count) (.bv (w * count))
      fun look => Smt.repeated count (look x)) ∧
    (∀ amount, Gives b (bvRotateLeft x amount) (.bv w)
      fun look => Smt.rotateLeft amount (look x)) ∧
    ∀ amount, Gives b (bvRotateRight x amount) (.bv w)
      fun look => Smt.rotateRight amount (look x) := by
  refine ⟨fun high low => ?_, ?_, fun extra => ?_, fun extra => ?_, fun count => ?_,
    fun amount => ?_, fun amount => ?_⟩
  · refine hb.inv.givesIff (o := .bvExtract x high low) (fun h => ?_) (fun h => ?_)
      fun _ _ _ => rfl
    · rw [TermOp.sortOf, hx, bvWidth?, Option.bind_some, if_pos h]
    · rw [TermOp.sortOf, hx, bvWidth?, Option.bind_some, if_neg h]
  · refine hb.inv.givesIff (o := .bvConcat x y) (fun h => ?_) (fun h => ?_) fun _ _ _ => rfl
    · rw [TermOp.sortOf, hx, hy]
      exact vectorSort_of_isWidth h
    · rw [TermOp.sortOf, hx, hy]
      exact vectorSort_of_not h
  · refine hb.inv.givesIff (o := .bvZext x extra) (fun h => ?_) (fun h => ?_) fun _ _ _ => rfl
    · rw [TermOp.sortOf, hx]
      exact vectorSort_of_isWidth h
    · rw [TermOp.sortOf, hx]
      exact vectorSort_of_not h
  · refine hb.inv.givesIff (o := .bvSext x extra) (fun h => ?_) (fun h => ?_) fun _ _ _ => rfl
    · rw [TermOp.sortOf, hx]
      exact vectorSort_of_isWidth h
    · rw [TermOp.sortOf, hx]
      exact vectorSort_of_not h
  · refine hb.inv.givesIff (o := .bvRepeat x count) (fun h => ?_) (fun h => ?_) fun _ _ _ => rfl
    · rw [TermOp.sortOf, hx]
      exact vectorSort_of_isWidth h
    · rw [TermOp.sortOf, hx]
      exact vectorSort_of_not h
  · refine hb.inv.gives (o := .bvRotateLeft x amount) ?_ fun _ _ _ => rfl
    rw [TermOp.sortOf, hx]
    rfl
  · refine hb.inv.gives (o := .bvRotateRight x amount) ?_ fun _ _ _ => rfl
    rw [TermOp.sortOf, hx]
    rfl

theorem structural_sound_twoVars :
    GivesIff twoVars (3 ≤ 6 ∧ 6 < 8) (bvExtract 0 6 3) (.bv 4)
        (fun look => Smt.extract 6 3 (look 0)) ∧
      GivesIff twoVars (IsWidth 16) (bvConcat 0 1) (.bv 16)
        fun look => Smt.concat (look 0) (look 1) :=
  have h := structural_sound twoVars_reachable twoVars_sort.1 twoVars_sort.2
  ⟨h.1 6 3, h.2.1⟩

/-- **Eager rewriting terminates**: the calls of each of these methods to itself and to the others
are at most as deep as the rounds that are written here, for running out of rounds is a panic. -/
theorem rewriting_terminates (hb : b.Reachable) (x y : TermId) :
    ∀ m ∈ [bvAddRounds 2 x y, bvOrWith (bvAddRounds 2) x y, bvXor x y, bvMulRounds (x + y + 1) x y,
      bvNeg x, bvShlRounds (x + 1) x y, bvLshrRounds (x + 2) x y], (b.make m).1 ≠ .panic := by
  have hmake (op : TermOp) : (b.make op.build).1 ≠ .panic := by
    rw [make]
    rcases TermOp.build_cases hb.inv.built (varsIn_any op) with
      ⟨t, s', σ, hrun, -⟩ | ⟨e, s', hrun, -⟩
    · rw [hrun]
      exact nofun
    · rw [hrun]
      exact nofun
  simp only [List.forall_mem_cons]
  exact ⟨hmake (.binary .bvAdd x y), hmake (.binary .bvOr x y), hmake (.binary .bvXor x y),
    hmake (.binary .bvMul x y), hmake (.unary .bvNeg x), hmake (.binary .bvShl x y),
    hmake (.binary .bvLshr x y), nofun⟩

theorem rewriting_terminates_twoVars : (twoVars.make (bvAddRounds 2 0 1)).1 ≠ .panic :=
  rewriting_terminates twoVars_reachable 0 1 _ List.mem_cons_self

/-- **The equality test on polynomials is right both ways.** -/
theorem polynomialEquality_sound (hb : b.Reachable) (hx : b.arena.sortAt x = some (.bv w))
    (hy : b.arena.sortAt y = some (.bv w)) :
    ∃ r, polynomialEquality x y b.arena = ok r ∧
      (r = some true → ∀ ρ, b.arena.value ρ x = b.arena.value ρ y) ∧
      (r = some false → ∀ ρ, b.arena.value ρ x ≠ b.arena.value ρ y) := by
  have hs := hb.inv.built.inv
  have hspec (ρ : Env) :=
    polynomialEquality_spec hs (hs.denotes_of_sort (ρ := ρ) hx) (hs.denotes_of_sort hy)
  obtain ⟨r, hr, -⟩ := hspec ⟨fun _ => 0, fun _ => false⟩
  have hsame {p : Bool} (hp : r = some p) (ρ : Env) :
      ((b.arena.value ρ x).toBv w == (b.arena.value ρ y).toBv w) = p := by
    obtain ⟨r', hr', h⟩ := hspec ρ
    rw [hr] at hr'
    exact h p (Outcome.ok.inj hr' ▸ hp)
  refine ⟨r, hr, fun h ρ => ?_, fun h ρ hxy => ?_⟩
  · rw [(hs.denotes_of_sort hx).value, (hs.denotes_of_sort hy).value, eq_of_beq (hsame h ρ)]
  · have := hsame h ρ
    rw [hxy, BEq.rfl] at this
    cases this

theorem polynomialEquality_sound_twoVars : ∃ r, polynomialEquality 0 1 twoVars.arena = ok r ∧
    (r = some true → ∀ ρ, twoVars.arena.value ρ 0 = twoVars.arena.value ρ 1) ∧
    (r = some false → ∀ ρ, twoVars.arena.value ρ 0 ≠ twoVars.arena.value ρ 1) :=
  polynomialEquality_sound twoVars_reachable twoVars_sort.1 twoVars_sort.2

/-- **The possible-bits analysis is an over-approximation, and terms that it finds disjoint share no
bit.** -/
theorem possibleBits_sound (hb : b.Reachable) :
    (∀ x w, b.arena.sortAt x = some (.bv w) → ∃ r,
      possibleBitMaskBytes 65 x w b.arena = ok r ∧ ∀ mask, r = some mask → ∀ ρ i,
        ((b.arena.value ρ x).toBv w).getLsbD i = true → (leNat mask).testBit i = true) ∧
    ∀ x y w, b.arena.sortAt x = some (.bv w) → b.arena.sortAt y = some (.bv w) → ∃ d,
      haveDisjointPossibleBits x y w b.arena = ok d ∧ (d = true → ∀ ρ,
        Smt.bvand (b.arena.value ρ x) (b.arena.value ρ y) = .bv w 0 ∧
        Smt.bvadd (b.arena.value ρ x) (b.arena.value ρ y) =
          Smt.bvor (b.arena.value ρ x) (b.arena.value ρ y) ∧
        Smt.bvxor (b.arena.value ρ x) (b.arena.value ρ y) =
          Smt.bvor (b.arena.value ρ x) (b.arena.value ρ y)) := by
  have hs := hb.inv.built.inv
  constructor
  · intro x w hx
    have hspec (ρ : Env) := possibleBitMaskBytes_covers hs 65 (hs.denotes_of_sort (ρ := ρ) hx)
    obtain ⟨r, hr, -⟩ := hspec ⟨fun _ => 0, fun _ => false⟩
    refine ⟨r, hr, fun mask hmask ρ i hi => ?_⟩
    obtain ⟨r', hr', h⟩ := hspec ρ
    rw [hr] at hr'
    obtain ⟨m, hm, hcover⟩ := h mask (Outcome.ok.inj hr' ▸ hmask)
    rw [hm.testBit]
    exact hcover i hi
  · intro x y w hx hy
    have hspec (ρ : Env) := haveDisjointPossibleBits_spec hs (hs.denotes_of_sort (ρ := ρ) hx)
      (hs.denotes_of_sort hy)
    obtain ⟨d, hd, -⟩ := hspec ⟨fun _ => 0, fun _ => false⟩
    refine ⟨d, hd, fun htrue ρ => ?_⟩
    obtain ⟨d', hd', h⟩ := hspec ρ
    rw [hd] at hd'
    have hand := h (Outcome.ok.inj hd' ▸ htrue)
    rw [(hs.denotes_of_sort hx).value, (hs.denotes_of_sort hy).value]
    generalize (b.arena.value ρ x).toBv w = u at hand ⊢
    generalize (b.arena.value ρ y).toBv w = v at hand ⊢
    rw [Smt.bvand, Smt.bvadd, Smt.bvor, Smt.bvxor, Value.map₂_bv, Value.map₂_bv, Value.map₂_bv,
      Value.map₂_bv, hand, add_eq_or hand, xor_eq_or hand]
    exact ⟨rfl, rfl, rfl⟩

theorem possibleBits_sound_twoVars : ∃ r, possibleBitMaskBytes 65 0 8 twoVars.arena = ok r ∧
    ∀ mask, r = some mask → ∀ ρ i,
      ((twoVars.arena.value ρ 0).toBv 8).getLsbD i = true → (leNat mask).testBit i = true :=
  (possibleBits_sound twoVars_reachable).1 0 8 twoVars_sort.1

end Builder
end Qfbv
end SmtServer
