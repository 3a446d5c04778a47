import SmtServer.Qfbv.Solver

/-!
# Unsat cores

`extract_named_core` tries to do without each named assertion once, in order, and never looks
back. That the result is irreducible rests on one fact: removing more assertions can only make a
satisfiable query stay satisfiable (`satisfiable_of_subset`), so an assertion that could not be
dropped when it was tried cannot be dropped later either.
-/

namespace SmtServer
namespace Qfbv
namespace Solver

open Lib Outcome

variable {solveOnce : SolveOnce} {query : Query}

/-- The solver answers, and an answer of `Sat` or `Unsat` is right. -/
def AnswersSoundly (solveOnce : SolveOnce) (q : Query) : Prop :=
  ∃ r, solveOnce q false = ok r ∧ match r.status with
    | .sat => q.Satisfiable
    | .unsat => ¬q.Satisfiable
    | .unknown => True
    | .simplified => False

/-! ## Subsets of the named assertions -/

theorem mem_queryWithNamedSubset {active : List Nat} {a : Assertion} :
    a ∈ (queryWithNamedSubset query active).assertions ↔
      ∃ i : Nat, query.assertions[i]? = some a ∧ (a.name = none ∨ i ∈ active) := by
  simp only [queryWithNamedSubset, List.mem_map, List.mem_filter, Prod.exists,
    List.mem_zipIdx_iff_getElem?, Bool.or_eq_true, Option.isNone_iff_eq_none, List.contains_iff_mem,
    exists_and_right, exists_eq_right]

/-- Fewer named assertions ask less. -/
theorem satisfiable_of_subset {active active' : List Nat} (h : active ⊆ active')
    (hs : (queryWithNamedSubset query active').Satisfiable) :
    (queryWithNamedSubset query active).Satisfiable := by
  obtain ⟨ρ, hρ⟩ := hs
  refine ⟨ρ, ?_⟩
  intro t ht
  apply hρ t
  rw [Query.mem_roots] at ht ⊢
  rcases ht with ⟨a, ha, rfl⟩ | ht
  · obtain ⟨i, hi, hname⟩ := mem_queryWithNamedSubset.mp ha
    exact .inl ⟨a, mem_queryWithNamedSubset.mpr ⟨i, hi, hname.imp_right fun hm => h hm⟩, rfl⟩
  · exact .inr ht

theorem mem_namedIndices {i : Nat} : i ∈ namedIndices query ↔
    ∃ (a : Assertion) (name : String), query.assertions[i]? = some a ∧ a.name = some name := by
  simp only [namedIndices, List.mem_filterMap, Prod.exists, List.mem_zipIdx_iff_getElem?,
    Option.map_eq_some_iff]
  constructor
  · rintro ⟨a, j, ha, name, hname, rfl⟩
    exact ⟨a, name, ha, hname⟩
  · rintro ⟨a, name, ha, hname⟩
    exact ⟨a, i, ha, name, hname, rfl⟩

theorem nodup_namedIndices : (namedIndices query).Nodup := by
  have hpairs : query.assertions.zipIdx.Pairwise fun p q => p.2 ≠ q.2 := by
    have hrange : (query.assertions.zipIdx.map Prod.snd).Nodup := by
      rw [List.zipIdx_map_snd]
      exact List.nodup_range' ..
    exact List.pairwise_map.mp hrange
  rw [namedIndices, List.Nodup, List.pairwise_filterMap]
  refine hpairs.imp ?_
  intro p q hne i hi j hj
  obtain ⟨-, -, rfl⟩ := Option.map_eq_some_iff.mp hi
  obtain ⟨-, -, rfl⟩ := Option.map_eq_some_iff.mp hj
  exact hne

/-- With all named assertions active nothing is left out. -/
theorem satisfiable_all (h : (queryWithNamedSubset query (namedIndices query)).Satisfiable) :
    query.Satisfiable := by
  obtain ⟨ρ, hρ⟩ := h
  refine ⟨ρ, ?_⟩
  intro t ht
  apply hρ t
  rw [Query.mem_roots] at ht ⊢
  rcases ht with ⟨a, ha, rfl⟩ | ht
  · obtain ⟨i, hi⟩ := List.mem_iff_getElem?.mp ha
    refine .inl ⟨a, mem_queryWithNamedSubset.mpr ⟨i, hi, ?_⟩, rfl⟩
    cases hname : a.name with
    | none => exact .inl rfl
    | some name => exact .inr (mem_namedIndices.mpr ⟨a, name, hi, hname⟩)
  · exact .inr ht

/-! ## The loop -/

/-- Before a round: what is active is unsatisfiable, and none of the candidates the loop has
passed can be dropped. -/
structure ShrinkInv (query : Query) (decided : Prop) (active : List Nat) (pos : Nat) : Prop where
  nodup : active.Nodup
  named : active ⊆ namedIndices query
  unsat : ¬(queryWithNamedSubset query active).Satisfiable
  passed : decided → ∀ i ∈ active.take pos,
    (queryWithNamedSubset query (active.filter (· ≠ i))).Satisfiable

/-- Past the last candidate all of them have been tried. -/
theorem ShrinkInv.finish {decided : Prop} {active : List Nat} {pos : Nat}
    (h : ShrinkInv query decided active pos) (hle : active.length ≤ pos) :
    ShrinkInv query decided active active.length := by
  refine ⟨h.nodup, h.named, h.unsat, ?_⟩
  intro hd i hi
  apply h.passed hd i
  rwa [List.take_of_length_le hle, ← @List.take_length _ active]

theorem filter_ne_of_getElem? {active : List Nat} (hn : active.Nodup) {pos c : Nat}
    (h : active[pos]? = some c) :
    active.filter (· ≠ c) = active.take pos ++ active.drop (pos + 1) := by
  obtain ⟨hlt, rfl⟩ := List.getElem?_eq_some_iff.mp h
  have heq : active.filter (· ≠ active[pos]) = active.erase active[pos] := by
    rw [hn.erase_eq_filter]
    refine List.filter_congr fun x _ => ?_
    by_cases hx : x = active[pos] <;> simp [hx]
  rw [heq, hn.erase_getElem, List.eraseIdx_eq_take_drop_succ]

/-- A round keeps the invariant, and leaves one candidate less to try. -/
theorem shrinkCore_spec {decided : Prop}
    (hsolve : ∀ active, AnswersSoundly solveOnce (queryWithNamedSubset query active))
    (hdec : decided → ∀ active r, solveOnce (queryWithNamedSubset query active) false = ok r →
      r.status ≠ .unknown) :
    ∀ (rounds : Nat) (active : List Nat) (pos : Nat), active.length ≤ pos + rounds →
      ShrinkInv query decided active pos →
      ∃ kept, shrinkCore solveOnce query rounds active pos = ok kept ∧
        ShrinkInv query decided kept kept.length := by
  intro rounds
  induction rounds with
  | zero =>
    intro active pos hlen hinv
    have hnone : active[pos]? = none := List.getElem?_eq_none_iff.mpr (by omega)
    exact ⟨active, by rw [shrinkCore, hnone], hinv.finish (by omega)⟩
  | succ rounds ih =>
    intro active pos hlen hinv
    cases hc : active[pos]? with
    | none =>
      exact ⟨active, by rw [shrinkCore, hc], hinv.finish (List.getElem?_eq_none_iff.mp hc)⟩
    | some candidate =>
      have hlt := (List.getElem?_eq_some_iff.mp hc).1
      obtain ⟨r, hr, hstatus⟩ := hsolve (active.filter (· ≠ candidate))
      have hrun : shrinkCore solveOnce query (rounds + 1) active pos =
          if r.status = .unsat then
            shrinkCore solveOnce query rounds (active.filter (· ≠ candidate)) pos
          else shrinkCore solveOnce query rounds active (pos + 1) := by
        rw [shrinkCore, hc]
        simp only [hr, ok_bind]
      rw [hrun]
      by_cases hunsat : r.status = .unsat
      · -- the candidate goes; those passed before are in front of it
        rw [if_pos hunsat]
        rw [hunsat] at hstatus
        have hsplit := filter_ne_of_getElem? hinv.nodup hc
        have htake : (active.filter (· ≠ candidate)).take pos = active.take pos := by
          rw [hsplit, List.take_append_of_le_length (by rw [List.length_take]; omega),
            List.take_take, Nat.min_self]
        refine ih _ pos ?_ ⟨hinv.nodup.filter _, ?_, hstatus, ?_⟩
        · rw [hsplit, List.length_append, List.length_take, List.length_drop]
          omega
        · exact fun i hi => hinv.named (List.mem_of_mem_filter hi)
        · intro hd i hi
          rw [htake] at hi
          refine satisfiable_of_subset ?_ (hinv.passed hd i hi)
          intro j hj
          rw [List.mem_filter, List.mem_filter] at hj
          exact List.mem_filter.mpr ⟨hj.1.1, hj.2⟩
      · rw [if_neg hunsat]
        refine ih active (pos + 1) (by omega) ⟨hinv.nodup, hinv.named, hinv.unsat, ?_⟩
        intro hd i hi
        rw [List.take_add_one, hc] at hi
        rcases List.mem_append.mp hi with hold | hnew
        · exact hinv.passed hd i hold
        · obtain rfl : i = candidate := by simpa using hnew
          have hsat : r.status = .sat := by
            have hne := hdec hd _ r hr
            cases hs : r.status with
            | sat => rfl
            | unsat => exact absurd hs hunsat
            | unknown => exact absurd hs hne
            | simplified =>
              rw [hs] at hstatus
              exact absurd hstatus id
          rw [hsat] at hstatus
          exact hstatus

/-- **Unsat cores are valid and irreducible.** The kept assertions are unsatisfiable together with
the unnamed ones and the assumptions; and if the solver always decides, dropping any one of them
leaves a satisfiable query. -/
theorem extractNamedCore_irreducible (hunsat : ¬query.Satisfiable)
    (hsolve : ∀ active, AnswersSoundly solveOnce (queryWithNamedSubset query active)) :
    ∃ kept : List Nat, extractNamedCore solveOnce query = ok (namesAt query kept) ∧
      kept.Nodup ∧ kept ⊆ namedIndices query ∧
      ¬(queryWithNamedSubset query kept).Satisfiable ∧
      ((∀ active r, solveOnce (queryWithNamedSubset query active) false = ok r →
          r.status ≠ .unknown) →
        ∀ i ∈ kept, (queryWithNamedSubset query (kept.filter (· ≠ i))).Satisfiable) := by
  have hstart : ShrinkInv query (∀ active r, solveOnce (queryWithNamedSubset query active) false =
      ok r → r.status ≠ .unknown) (namedIndices query) 0 :=
    ⟨nodup_namedIndices, fun _ h => h, fun h => hunsat (satisfiable_all h), fun _ i hi => by simp at hi⟩
  obtain ⟨kept, hrun, hinv⟩ := shrinkCore_spec hsolve (fun h => h) (namedIndices query).length
    (namedIndices query) 0 (by omega) hstart
  have hindex : (forM kept fun index => do
      let _ ← expect query.assertions[index]?
      pure () : Result Unit) = ok () := by
    rw [forM_eq_ok]
    intro i hi
    obtain ⟨a, name, ha, -⟩ := mem_namedIndices.mp (hinv.named hi)
    rw [ha]
    rfl
  refine ⟨kept, ?_, hinv.nodup, hinv.named, hinv.unsat, ?_⟩
  · rw [extractNamedCore, hrun, ok_bind, hindex]
    rfl
  · intro hdec i hi
    exact hinv.passed hdec i (by rwa [List.take_length])

/-- `false` and `true`, both named. -/
def falseAndTrue : Query where
  arena := ⟨[⟨.boolConst false, .bool⟩, ⟨.boolConst true, .bool⟩]⟩
  assertions := [⟨1, some "t"⟩, ⟨0, some "f"⟩]
  assumptions := []
  command := .solve
  target := none
  signed := false
  wantModel := false
  wantCore := true
  getValues := []

/-- A solver for queries without variables: it looks at one assignment. -/
def solveConst : SolveOnce := fun q _ =>
  ok (if q.assertionsAndAssumptions.all fun t => (q.arena.value ⟨fun _ => 0, fun _ => false⟩ t).toBool
    then .sat none else .unsat)

theorem solveConst_answers (active : List Nat) :
    AnswersSoundly solveConst (queryWithNamedSubset falseAndTrue active) := by
  have hvalue : ∀ ρ t, falseAndTrue.arena.value ρ t =
      falseAndTrue.arena.value ⟨fun _ => 0, fun _ => false⟩ t := by
    intro ρ t
    match t with
    | 0 | 1 => rfl
    | t + 2 => rfl
  refine ⟨_, rfl, ?_⟩
  split
  · rename_i h
    split at h
    · rename_i hall
      rw [List.all_eq_true] at hall
      exact ⟨_, hall⟩
    · cases h
  · rename_i h
    split at h
    · cases h
    · rename_i hall
      rintro ⟨ρ, hρ⟩
      apply hall
      rw [List.all_eq_true]
      intro t ht
      show (falseAndTrue.arena.value _ t).toBool = true
      rw [← hvalue ρ]
      exact hρ t ht
  · trivial
  · rename_i h
    split at h <;> cases h

theorem extractNamedCore_falseAndTrue : extractNamedCore solveConst falseAndTrue = ok ["f"] ∧
    ∃ kept : List Nat, extractNamedCore solveConst falseAndTrue = ok (namesAt falseAndTrue kept) ∧
      kept.Nodup ∧ kept ⊆ namedIndices falseAndTrue ∧
      ¬(queryWithNamedSubset falseAndTrue kept).Satisfiable ∧
      ((∀ active r, solveConst (queryWithNamedSubset falseAndTrue active) false = ok r →
          r.status ≠ .unknown) →
        ∀ i ∈ kept, (queryWithNamedSubset falseAndTrue (kept.filter (· ≠ i))).Satisfiable) := by
  refine ⟨by decide, extractNamedCore_irreducible ?_ solveConst_answers⟩
  rintro ⟨ρ, hρ⟩
  have hfalse : false = true := hρ 0 (by decide)
  cases hfalse

end Solver
end Qfbv
end SmtServer
