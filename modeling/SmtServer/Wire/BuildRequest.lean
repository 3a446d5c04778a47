import SmtServer.Wire.Compact

/-!
# Requests

What a request built from a builder says: the assertions of the builder, named ones first and
each with its own name, and its assumptions, every one of them denoting the function of the
variables that it denotes in the builder. A `SIMPLIFY` request is about its target alone and
carries neither.
-/

namespace SmtServer
namespace Wire

open Lib Outcome

/-- A reference into a buffer that stands for a reference into the builder: it has its sort and
denotes the same function of the variables. -/
def SameAs (s : ExprBuilder) (b : List UInt8) (new old : NodeRef) : Prop :=
  new.sort = old.sort ∧ ∀ ρ, (Parts.ofBytes b).value ρ new.idx = s.parts.value ρ old.idx

/-- The builder's assertions and assumptions, as far as a command takes them into account. -/
def relevant {α : Type} (command : Command) (xs : List α) : List α :=
  if command = .simplify then [] else xs

/-- What a request carries. -/
structure Carries (s : ExprBuilder) (command : Command) (target : Option NodeRef)
    (r : BinaryRequest) : Prop where
  /-- The assertion roots are the assertions in some order, named ones first. -/
  assertions : ∃ ordered : List Assertion, ordered.Perm (relevant command s.assertions) ∧
    List.Forall₂ (fun new (a : Assertion) => SameAs s r.expression new a.root)
      r.assertionRoots ordered ∧
    ∃ unnamed, ordered.map (·.name) = r.namedAssertionRefs.map some ++ List.replicate unnamed none
  /-- Names read the same in the request. -/
  names : ∀ ref, (Parts.ofBytes r.expression).textAt ref = s.parts.textAt ref
  assumptions : List.Forall₂ (SameAs s r.expression) r.assumptionRoots
    (relevant command s.assumptions)
  target : ∀ t, target = some t → SameAs s r.expression ⟨r.envelope.targetNode⟩ t

namespace ExprBuilder

variable {s : ExprBuilder} {c : CompactedExpression}

theorem remapAll_eq_ok {rs news : List NodeRef} (h : remapAll c rs = ok news) :
    List.Forall₂ (fun new old => c.remapRef old = ok new) news rs := by
  induction rs generalizing news with
  | nil =>
    obtain rfl := Outcome.ok.inj h
    exact .nil
  | cons r rest ih =>
    simp only [remapAll, bind_eq_ok, pure_eq, Outcome.ok.injEq] at h
    obtain ⟨new, hnew, news', hrest, rfl⟩ := h
    exact .cons hnew (ih hrest)

/-- Named assertions first, then the others: a permutation, and the names come with it. -/
theorem orderedAssertions_perm (s : ExprBuilder) (command : Command) :
    (s.orderedAssertions command).Perm (relevant command s.assertions) := by
  unfold orderedAssertions relevant
  split
  · exact .refl _
  · exact List.filter_append_perm _ _

theorem orderedAssertions_names (s : ExprBuilder) (command : Command) :
    ∃ unnamed, (s.orderedAssertions command).map (·.name) =
      ((s.orderedAssertions command).filterMap (·.name)).map some ++ List.replicate unnamed none := by
  -- both halves, by induction on the assertions
  have hnamed : ∀ xs : List Assertion, (xs.filter (·.name.isSome)).map (·.name) =
      ((xs.filter (·.name.isSome)).filterMap (·.name)).map some := by
    intro xs
    induction xs with
    | nil => rfl
    | cons a rest ih =>
      cases hn : a.name with
      | none => simpa [hn] using ih
      | some ref => simpa [hn] using ih
  have hrest : ∀ xs : List Assertion, (xs.filter (!·.name.isSome)).map (·.name) =
      List.replicate (xs.filter (!·.name.isSome)).length none ∧
      (xs.filter (!·.name.isSome)).filterMap (·.name) = [] := by
    intro xs
    induction xs with
    | nil => exact ⟨rfl, rfl⟩
    | cons a rest ih =>
      cases hn : a.name with
      | none => simpa [hn, List.replicate_succ] using ih
      | some ref => simpa [hn] using ih
  unfold orderedAssertions
  split
  · exact ⟨0, rfl⟩
  · refine ⟨(s.assertions.filter (!·.name.isSome)).length, ?_⟩
    rw [List.map_append, List.filterMap_append, (hrest _).2, List.append_nil, hnamed, (hrest _).1]

theorem new_eq_ok {requestId : UInt32} {command : Command} {flags : UInt8} {budgetMs : UInt32}
    {expression : List UInt8} {assertionRoots : List NodeRef} {named : List BlobRef}
    {assumptionRoots : List NodeRef} {target : Option NodeRef} {r : BinaryRequest}
    (h : BinaryRequest.new requestId command flags budgetMs expression assertionRoots named
      assumptionRoots target = ok r) :
    r.expression = expression ∧ r.assertionRoots = assertionRoots ∧ r.namedAssertionRefs = named ∧
      r.assumptionRoots = assumptionRoots ∧
      r.envelope.targetNode = (target.map (·.raw)).getD 0 := by
  simp only [BinaryRequest.new, bind_eq_ok, ensure_eq_ok, exists_const, pure_eq,
    Outcome.ok.injEq] at h
  obtain ⟨_, -, -, -, -, -, -, -, _, -, rfl⟩ := h
  exact ⟨rfl, rfl, rfl, rfl, rfl⟩

/-- **What a built request says.** -/
theorem buildRequest_carries (hs : s.Inv) {requestId : UInt32} {command : Command} {flags : UInt8}
    {budgetMs : UInt32} {target : Option NodeRef} {b : List UInt8}
    (h : s.buildRequest requestId command flags budgetMs target = ok b) :
    ∃ r, BinaryRequest.parse b = ok r ∧ Carries s command target r := by
  simp only [buildRequest, bind_eq_ok] at h
  obtain ⟨c, hc, assertionRoots, ha, assumptionRoots, hq, target', ht, r, hr, henc⟩ := h
  obtain ⟨marked, q, hok⟩ := (compact_spec hs _).2 c hc
  obtain ⟨he, hra, hrn, hrq, hrt⟩ := new_eq_ok hr
  have hsound : ∀ {new old}, c.remapRef old = ok new → SameAs s r.expression new old := by
    intro new old hmap
    rw [he]
    exact hok.remapRef_sound hs hmap
  refine ⟨r, BinaryRequest.parse_eq_ok_iff.mpr henc, ⟨?_, ?_, ?_, ?_⟩⟩
  · refine ⟨s.orderedAssertions command, orderedAssertions_perm s command, ?_, ?_⟩
    · rw [hra]
      have hroots := remapAll_eq_ok ha
      rw [List.forall₂_map_right_iff] at hroots
      exact hroots.imp fun _ _ hmap => hsound hmap
    · rw [hrn]
      exact orderedAssertions_names s command
  · intro ref
    rw [he, (hok.wellFormed hs).2]
    exact hok.relocation.textAt_eq ref
  · rw [hrq]
    exact (remapAll_eq_ok hq).imp fun _ _ hmap => hsound hmap
  · rintro t rfl
    simp only [remapTarget, bind_eq_ok, pure_eq, Outcome.ok.injEq] at ht
    obtain ⟨new, hnew, rfl⟩ := ht
    rw [hrt]
    exact hsound hnew

/-- The buffer of a builder: written unless the child array has outgrown its count, and
accepted by the validator. -/
theorem toBytes_spec (hs : s.Inv) :
    ((∃ b, s.toBytes = ok b) ↔ s.children.length < 2 ^ 32) ∧
      ∀ b, s.toBytes = ok b → ∃ v, ExprView.parseAndValidate b = ok v := by
  refine ⟨⟨?_, ?_⟩, ?_⟩
  · rintro ⟨b, hb⟩
    exact (fromParts_eq_ok.mp hb).1.2.1
  · intro hc
    exact ⟨_, fromParts_eq_ok.mpr ⟨⟨hs.nodes_le, hc, hs.blob_lt⟩, rfl⟩⟩
  · intro b hb
    exact ⟨_, parseAndValidate_eq_ok.mpr ⟨(hs.wf.fromParts hb).1, rfl⟩⟩

end ExprBuilder

/-- **Builders produce valid, meaning-preserving buffers and requests**, whatever calls were made
before and whether or not they succeeded. -/
theorem builder_requests_valid (ops : List Op) :
    -- the expression buffer
    (Safe (runOps ops).toBytes ∧
      ((∃ b, (runOps ops).toBytes = ok b) ↔ (runOps ops).children.length < 2 ^ 32) ∧
      ∀ b, (runOps ops).toBytes = ok b → ∃ v, ExprView.parseAndValidate b = ok v) ∧
    -- compaction
    (∀ roots, Safe ((runOps ops).compact roots) ∧ ∀ c, (runOps ops).compact roots = ok c →
      (∃ v, ExprView.parseAndValidate c.bytes = ok v) ∧
      (∀ root ∈ roots, ∃ new, c.remapRef root = ok new) ∧
      (∀ old new, c.remapRef old = ok new → SameAs (runOps ops) c.bytes new old) ∧
      ∀ old new, c.remapRef old = ok new ↔ c.originalRef new = ok old) ∧
    -- requests
    ∀ requestId command flags budgetMs target b,
      (runOps ops).buildRequest requestId command flags budgetMs target = ok b →
      ∃ r, BinaryRequest.parse b = ok r ∧ Carries (runOps ops) command target r := by
  have hs := runOps_inv ops
  refine ⟨⟨safe_fromParts, ExprBuilder.toBytes_spec hs⟩, ?_, ?_⟩
  · intro roots
    obtain ⟨hsafe, hspec⟩ := ExprBuilder.compact_spec hs roots
    refine ⟨hsafe, ?_⟩
    intro c hc
    obtain ⟨marked, q, hok⟩ := hspec c hc
    refine ⟨⟨_, parseAndValidate_eq_ok.mpr ⟨(hok.wellFormed hs).1, rfl⟩⟩, ?_, ?_, ?_⟩
    · intro root hroot
      exact hok.remapRef_root hs hroot
    · intro old new hmap
      exact hok.remapRef_sound hs hmap
    · intro old new
      exact (hok.originalRef_eq_ok hs).symm
  · intro requestId command flags budgetMs target b hb
    exact ExprBuilder.buildRequest_carries hs hb

/-- A builder with one assertion, `true`, and a `SIMPLIFY` request about it: the request carries
no assertion. -/
theorem simplify_request_without_assertions :
    ∃ b r, (runOps [.boolTrue, .assert (.mk' .bool 0)]).buildRequest 7 .simplify 0 0
        (some (.mk' .bool 0)) = ok b ∧ BinaryRequest.parse b = ok r ∧
      (runOps [.boolTrue, .assert (.mk' .bool 0)]).assertions = [⟨.mk' .bool 0, none⟩] ∧
      r.assertionRoots = [] := by
  have key : ((runOps [.boolTrue, .assert (.mk' .bool 0)]).buildRequest 7 .simplify 0 0
      (some (.mk' .bool 0)) >>= BinaryRequest.parse >>= fun r => ok r.assertionRoots) = ok [] := by
    decide
  obtain ⟨r, hr, hroots⟩ := bind_eq_ok.mp key
  obtain ⟨b, hb, hr⟩ := bind_eq_ok.mp hr
  exact ⟨b, r, hb, hr, by decide, Outcome.ok.inj hroots⟩

end Wire
end SmtServer
