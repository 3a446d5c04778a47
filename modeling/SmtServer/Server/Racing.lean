import SmtServer.Lib.Channel
import SmtServer.Server.Backend

/-!
# `racing.rs` — several backends, one answer

`RacingBackend::handle` starts one thread for each backend, lets them send what they found over
a channel and takes the first result that answers the request. Results that do not (an unknown,
an error, a verdict without the artifact that was asked for) are remembered: the first of them
is what is returned if nothing better comes.

The threads and the channel are `Lib.Channel` with the loop body of `handle` as the receiver. A
thread's outcome is arbitrary and fixed in advance; whether a backend looked at its cancellation
token on the way is therefore covered, and so is a backend that panics (its thread hangs up
without sending). A winner's rivals are drained by a thread that only writes to the log.
-/

namespace SmtServer
namespace Server

open Lib Outcome Wire

/-- What a thread sends when its backend is through; a panicking backend sends nothing. -/
def delivery : Result QueryResult → Option (Except WireError QueryResult)
  | .ok result => some (.ok result)
  | .err e => some (.error e)
  | .panic => none

structure RacingBackend where
  backends : List Backend
  defaultBudgetMs : Option UInt32

namespace RacingBackend

def new (backends : List Backend) : RacingBackend := ⟨backends, none⟩

def withDefaultBudgetMs (self : RacingBackend) (defaultBudgetMs : UInt32) : RacingBackend :=
  { self with defaultBudgetMs := if defaultBudgetMs ≠ 0 then some defaultBudgetMs else none }

/-- `0` is no deadline. -/
def effectiveBudgetMs (self : RacingBackend) (request : BinaryRequest) : UInt32 :=
  if request.envelope.budgetMs = 0 then self.defaultBudgetMs.getD 0
  else request.envelope.budgetMs

/-- `racing_deadline(..).is_some()`. -/
def hasDeadline (self : RacingBackend) (request : BinaryRequest) : Bool :=
  decide (self.effectiveBudgetMs request ≠ 0)

/-- The body of the loop; the accumulator is `first_unknown`. -/
def onResult (request : BinaryRequest) (firstUnknown : Option QueryResult) :
    Except WireError QueryResult → Option QueryResult ⊕ QueryResult
  | .ok result =>
    if result.isConclusiveFor request then .inr result
    else if result.isConclusive then
      .inl (some (firstUnknown.getD (.ofUnknown
        "backend returned conclusive result without requested artifact")))
    else .inl (some (firstUnknown.getD result))
  | .error e => .inl (some (firstUnknown.getD (.ofUnknown e.display)))

/-- After the loop. -/
def onEnd (deadline : Bool) (firstUnknown : Option QueryResult) : QueryResult :=
  firstUnknown.getD
    (if deadline then .ofUnknown "racing backend deadline elapsed"
    else .ofUnknown "all backends returned no result")

/-- The race of `handle` over at least two backends. -/
def race (self : RacingBackend) (request : BinaryRequest)
    (outcome : Fin self.backends.length → Result QueryResult) :
    Channel (Fin self.backends.length) (Except WireError QueryResult) (Option QueryResult)
      QueryResult where
  outcome i := delivery (outcome i)
  timed := self.hasDeadline request
  start := none
  onMessage := onResult request
  onEnd := onEnd (self.hasDeadline request)

/-- The state of a race. -/
abbrev RaceState (self : RacingBackend) :=
  Channel.State (Fin self.backends.length) (Except WireError QueryResult) (Option QueryResult)
    QueryResult

/-- What `handle` can return: with fewer than two backends there is no race. -/
inductive Handles (self : RacingBackend) (request : BinaryRequest)
    (outcome : Fin self.backends.length → Result QueryResult) : Result QueryResult → Prop
  | unconfigured : self.backends = [] →
    Handles self request outcome (ok (.ofUnknown "no backends configured"))
  | single {i : Fin self.backends.length} : self.backends.length = 1 →
    Handles self request outcome (outcome i)
  | raced {s : self.RaceState} {r : QueryResult} : 2 ≤ self.backends.length →
    (self.race request outcome).Reaches s → s.main = .inr r →
    Handles self request outcome (ok r)

end RacingBackend

/-! ## The loop over a fixed order of arrival -/

/-- A delivered result that answers the request. -/
def answer (request : BinaryRequest) : Except WireError QueryResult → Option QueryResult
  | .ok result => if result.isConclusiveFor request then some result else none
  | .error _ => none

/-- The first answer among the messages. -/
def firstAnswer (request : BinaryRequest) (messages : List (Except WireError QueryResult)) :
    Option QueryResult :=
  messages.findSome? (answer request)

theorem answer_eq_some {request : BinaryRequest} {m : Except WireError QueryResult}
    {q : QueryResult} :
    answer request m = some q ↔ m = .ok q ∧ q.isConclusiveFor request = true := by
  cases m with
  | error e => simp [answer]
  | ok r =>
    simp only [answer, Option.ite_none_right_eq_some, Option.some.injEq, Except.ok.injEq]
    constructor
    · rintro ⟨h, rfl⟩
      exact ⟨rfl, h⟩
    · rintro ⟨rfl, h⟩
      exact ⟨h, rfl⟩

theorem delivery_eq_ok {o : Result QueryResult} {q : QueryResult} :
    delivery o = some (.ok q) ↔ o = ok q := by
  cases o <;> simp [delivery]

namespace RacingBackend

variable {self : RacingBackend} {request : BinaryRequest}
  {outcome : Fin self.backends.length → Result QueryResult}

/-- What is remembered is open. -/
def Held (firstUnknown : Option QueryResult) : Prop :=
  ∀ q, firstUnknown = some q → q.isConclusive = false

theorem Held.getD {o : Option QueryResult} (h : Held o) {q : QueryResult}
    (hq : q.isConclusive = false) : (o.getD q).isConclusive = false := by
  cases o with
  | none => exact hq
  | some r => exact h r rfl

/-- One round: an answer ends the loop, anything else leaves it with an open result. -/
theorem onResult_cases (request : BinaryRequest) {o : Option QueryResult} (h : Held o)
    (m : Except WireError QueryResult) :
    (∃ q, answer request m = some q ∧ onResult request o m = .inr q) ∨
    (answer request m = none ∧ ∃ o', Held o' ∧ onResult request o m = .inl o') := by
  have held : ∀ q : QueryResult, q.isConclusive = false → Held (some (o.getD q)) := by
    intro q hq r hr
    rw [← Option.some.inj hr]
    exact h.getD hq
  cases m with
  | error e => exact .inr ⟨rfl, _, held _ rfl, rfl⟩
  | ok q =>
    simp only [answer, onResult]
    by_cases hq : q.isConclusiveFor request = true
    · exact .inl ⟨q, by rw [if_pos hq], by rw [if_pos hq]⟩
    · right
      rw [if_neg hq, if_neg hq]
      by_cases hc : q.isConclusive = true
      · rw [if_pos hc]
        exact ⟨rfl, _, held _ rfl, rfl⟩
      · rw [if_neg hc]
        exact ⟨rfl, _, held _ (Bool.eq_false_iff.mpr hc), rfl⟩

/-- The whole loop: the first answer, or an open result if there is none. -/
theorem feed_race (ms : List (Except WireError QueryResult)) {o : Option QueryResult}
    (h : Held o) :
    (∃ q, firstAnswer request ms = some q ∧
      (self.race request outcome).feed (.inl o) ms = .inr q) ∨
    (firstAnswer request ms = none ∧
      ∃ o', Held o' ∧ (self.race request outcome).feed (.inl o) ms = .inl o') := by
  induction ms generalizing o with
  | nil => exact .inr ⟨rfl, o, h, rfl⟩
  | cons m ms ih =>
    rcases onResult_cases request h m with ⟨q, ha, hr⟩ | ⟨ha, o', ho', hr⟩
    · refine .inl ⟨q, by simp [firstAnswer, ha], ?_⟩
      show (self.race request outcome).feed (onResult request o m) ms = _
      rw [hr, Channel.feed_inr]
    · have hf : firstAnswer request (m :: ms) = firstAnswer request ms := by
        simp [firstAnswer, ha]
      have hs : (self.race request outcome).feed (.inl o) (m :: ms) =
          (self.race request outcome).feed (.inl o') ms := by
        show (self.race request outcome).feed (onResult request o m) ms = _
        rw [hr]
      rw [hf, hs]
      exact ih ho'

theorem isConclusive_onEnd {deadline : Bool} {o : Option QueryResult} (h : Held o) :
    (onEnd deadline o).isConclusive = false := by
  refine h.getD ?_
  split <;> rfl

/-- The value returned for an order of arrival. -/
theorem result_race (ms : List (Except WireError QueryResult)) :
    (∃ q, firstAnswer request ms = some q ∧ (self.race request outcome).result ms = q) ∨
    (firstAnswer request ms = none ∧
      ((self.race request outcome).result ms).isConclusive = false) := by
  have hstart : Held (self.race request outcome).start := by
    rintro q ⟨⟩
  unfold Channel.result
  rcases @feed_race self request outcome ms _ hstart with ⟨q, ha, hf⟩ | ⟨ha, o, ho, hf⟩
  · rw [hf]
    exact .inl ⟨q, ha, rfl⟩
  · rw [hf]
    exact .inr ⟨ha, isConclusive_onEnd ho⟩

theorem status_of_not_isConclusive {q : QueryResult} (h : q.isConclusive = false) :
    q.status = .unknown := by
  unfold QueryResult.isConclusive at h
  split at h
  all_goals first | assumption | cases h

/-- The winner of a race answers the request, and somebody sent it. -/
theorem exists_outcome_of_firstAnswer {s : self.RaceState}
    (h : (self.race request outcome).Reaches s) {q : QueryResult}
    (hq : firstAnswer request (Channel.texts s.arrived) = some q) :
    ∃ i, outcome i = ok q ∧ q.isConclusiveFor request = true := by
  obtain ⟨m, hm, ha⟩ := List.exists_of_findSome?_eq_some hq
  obtain ⟨rfl, hc⟩ := answer_eq_some.mp ha
  obtain ⟨⟨i, m⟩, hi, rfl⟩ := List.mem_map.mp hm
  exact ⟨i, delivery_eq_ok.mp (h.inv.sound i _ hi).1, hc⟩

/-- A loop that ends without an answer has seen every message. -/
theorem all_arrived {s : self.RaceState} {r : QueryResult}
    (hn : firstAnswer request (Channel.texts s.arrived) = none)
    (hend : (self.race request outcome).feed (.inl (self.race request outcome).start)
        (Channel.texts s.arrived) = .inr r ∨
      ∀ i m, delivery (outcome i) = some m → (i, m) ∈ s.arrived) :
    ∀ i m, delivery (outcome i) = some m → (i, m) ∈ s.arrived := by
  rcases hend with hfeed | hall
  · have hheld : Held (self.race request outcome).start := by
      rintro q ⟨⟩
    rcases @feed_race self request outcome (Channel.texts s.arrived) _ hheld with
      ⟨q, ha, -⟩ | ⟨-, o, -, ho⟩
    · rw [hn] at ha
      cases ha
    · rw [ho] at hfeed
      cases hfeed
  · exact hall

/-- A race that ends without an answer had none to wait for. -/
theorem no_answer_of_firstAnswer_eq_none {s : self.RaceState}
    (hall : ∀ i m, delivery (outcome i) = some m → (i, m) ∈ s.arrived)
    (hn : firstAnswer request (Channel.texts s.arrived) = none) {i : Fin self.backends.length}
    {q : QueryResult} (hi : outcome i = ok q) : q.isConclusiveFor request = false := by
  have hmem : (.ok q : Except WireError QueryResult) ∈ Channel.texts s.arrived :=
    List.mem_map_of_mem (hall i _ (delivery_eq_ok.mpr hi))
  have := List.findSome?_eq_none_iff.mp hn _ hmem
  by_contra hc
  rw [answer_eq_some.mpr ⟨rfl, by simpa using hc⟩] at this
  cases this

/-- Whatever is returned, deadline or not, is an answer or an open result. -/
theorem validateArtifactsFor_of_returned {s : self.RaceState} {r : QueryResult}
    (h : (self.race request outcome).Reaches s) (hr : s.main = .inr r) :
    r.validateArtifactsFor request = ok () ∧
    (r.isConclusive = true → r.isConclusiveFor request = true) := by
  obtain ⟨taken, rest, -, rfl⟩ := h.result_timed hr
  rcases @result_race self request outcome (Channel.texts taken) with ⟨q, ha, hq⟩ | ⟨-, hq⟩
  · obtain ⟨m, -, ha⟩ := List.exists_of_findSome?_eq_some ha
    have hc := (answer_eq_some.mp ha).2
    rw [hq]
    have hv := hc
    simp only [QueryResult.isConclusiveFor, Bool.and_eq_true, decide_eq_true_eq] at hv
    exact ⟨hv.2, fun _ => hc⟩
  · refine ⟨QueryResult.validateArtifactsFor_of_not_isConclusive request hq, fun hc => ?_⟩
    rw [hq] at hc
    cases hc

/-- **Racing is safe over every order of arrival.** Without a deadline, whatever the backends
end with and however their threads are scheduled: the log is made of what the backends sent,
each at most once; the call returns after finitely many steps; and the result it returns is
conclusive exactly when some backend's result answers the request, is then the first such result
in the log, and is otherwise unknown. Nothing that fails the artifact check is returned. -/
theorem race_returns_first_answer (self : RacingBackend) (request : BinaryRequest)
    (outcome : Fin self.backends.length → Result QueryResult)
    (htwo : 2 ≤ self.backends.length) (hbudget : self.effectiveBudgetMs request = 0) :
    (∀ s : self.RaceState, (self.race request outcome).Reaches s →
      (∀ i m, (i, m) ∈ s.arrived → delivery (outcome i) = some m) ∧
      (s.arrived.map Prod.fst).Nodup ∧
      (∀ g, s.main = .inl g → ∃ s', (self.race request outcome).Step s s') ∧
      ∀ r, s.main = .inr r →
        self.Handles request outcome (ok r) ∧
        (r.isConclusive = true ↔ ∃ i q, outcome i = ok q ∧ q.isConclusiveFor request = true) ∧
        (r.isConclusive = true ↔
          ∃ i q, (i, .ok q) ∈ s.arrived ∧ q.isConclusiveFor request = true) ∧
        (r.isConclusive = true → firstAnswer request (s.arrived.map Prod.snd) = some r) ∧
        (r.isConclusive = false → r.status = .unknown) ∧
        r.validateArtifactsFor request = ok ()) ∧
    WellFounded fun s' s : self.RaceState => (self.race request outcome).Step s s' := by
  refine ⟨fun s h => ⟨fun i m hm => (h.inv.sound i m hm).1, h.inv.nodup,
    fun g hg => Channel.exists_step hg, fun r hr => ?_⟩, Channel.wellFounded_step⟩
  have htimed : (self.race request outcome).timed = false := by
    simp [race, hasDeadline, hbudget]
  obtain ⟨rfl, hend⟩ := h.result_eq htimed hr
  refine ⟨.raced htwo h hr, ?_⟩
  rcases @result_race self request outcome (Channel.texts s.arrived) with ⟨q, ha, hq⟩ | ⟨ha, hq⟩
  · obtain ⟨i, ho, hc⟩ := exists_outcome_of_firstAnswer h ha
    have hcon := QueryResult.isConclusive_of_isConclusiveFor hc
    obtain ⟨m, hm, ham⟩ := List.exists_of_findSome?_eq_some ha
    obtain ⟨rfl, -⟩ := answer_eq_some.mp ham
    obtain ⟨⟨j, m⟩, hj, rfl⟩ := List.mem_map.mp hm
    rw [hq]
    refine ⟨⟨fun _ => ⟨i, q, ho, hc⟩, fun _ => hcon⟩, ⟨fun _ => ⟨j, q, hj, hc⟩, fun _ => hcon⟩,
      fun _ => ha, fun hf => ?_, hq ▸ (validateArtifactsFor_of_returned h hr).1⟩
    rw [hcon] at hf
    cases hf
  · -- nothing in the log answers the request, so the loop ended because every thread was gone
    have hall := all_arrived ha hend
    have hnone : ∀ i q, outcome i = ok q → ¬ q.isConclusiveFor request = true := by
      intro i q hi hc
      rw [no_answer_of_firstAnswer_eq_none hall ha hi] at hc
      cases hc
    have hopen : ¬ ((self.race request outcome).result (Channel.texts s.arrived)).isConclusive =
        true := by simp [hq]
    refine ⟨⟨fun hc => absurd hc hopen, ?_⟩, ⟨fun hc => absurd hc hopen, ?_⟩,
      fun hc => absurd hc hopen, fun _ => status_of_not_isConclusive hq,
      (validateArtifactsFor_of_returned h hr).1⟩
    · rintro ⟨i, q, hi, hc⟩
      exact absurd hc (hnone i q hi)
    · rintro ⟨i, q, hi, hc⟩
      exact absurd hc (hnone i q (delivery_eq_ok.mp (h.inv.sound i _ hi).1))

/-- A race of two in which the first backend dies: the other's verdict is returned, whenever it
arrives. -/
theorem race_returns_survivor :
    let request : BinaryRequest := ⟨⟨7, .solve, 0, 0, 0, 0, 0, 0, 0⟩, [], [], [], []⟩
    let racing : RacingBackend := .new
      [⟨"dies", false, fun _ => .panic⟩, ⟨"decides", false, fun _ => ok (.ofSat none)⟩]
    let outcome : Fin 2 → Result QueryResult :=
      fun i => if i.val = 0 then .panic else ok (.ofSat none)
    ∀ s : racing.RaceState, (racing.race request outcome).Reaches s →
      ∀ r, s.main = .inr r → r = .ofSat none := by
  intro request racing outcome s h r hr
  obtain ⟨hall, -⟩ := race_returns_first_answer racing request outcome (by decide) (by decide)
  obtain ⟨hlog, -, -, hret⟩ := hall s h
  obtain ⟨-, hiff, -, hfirst, -⟩ := hret r hr
  have hc : r.isConclusive = true := hiff.mpr ⟨⟨1, by decide⟩, .ofSat none, rfl, by decide⟩
  obtain ⟨m, hm, ha⟩ := List.exists_of_findSome?_eq_some (hfirst hc)
  obtain ⟨rfl, -⟩ := answer_eq_some.mp ha
  obtain ⟨⟨i, m⟩, hi, hm⟩ := List.mem_map.mp hm
  have ho : outcome i = ok r := delivery_eq_ok.mp ((hlog i m hi).trans (congrArg some hm))
  dsimp only [outcome] at ho
  split at ho
  · cases ho
  · exact (Outcome.ok.inj ho).symm

/-! ## One backend

`handle` calls a lone backend directly. What the race does on the way, to the budget of the request,
to verdicts without their artifact and to errors, is not done then. -/

/-- The request every backend is given. -/
def invoked (self : RacingBackend) (request : BinaryRequest) : BinaryRequest :=
  if self.backends.length = 1 then request
  else if request.envelope.budgetMs = 0 then
    { request with
      envelope := { request.envelope with budgetMs := self.effectiveBudgetMs request } }
  else request

/-- A second backend, which never knows. -/
def besideUnknown (self : RacingBackend) : RacingBackend :=
  { self with backends := self.backends ++ [⟨"unknown", false, fun _ => ok (.ofUnknown "")⟩] }

/-- The race of a backend that ends with `o` and one that says `UNKNOWN`, with no deadline
reached. -/
def raceBesideUnknown (self : RacingBackend) (request : BinaryRequest) (o : Result QueryResult)
    (message : String) : Channel (Fin self.besideUnknown.backends.length)
      (Except WireError QueryResult) (Option QueryResult) QueryResult :=
  { self.besideUnknown.race request fun i => if i.val = 0 then o else ok (.ofUnknown message) with
    timed := false }

/-- The status a call ends with; an error has none. -/
def statusOf : Result QueryResult → Option QueryStatus
  | .ok r => some r.status
  | _ => none

/-- The number of backends makes no difference. -/
structure TreatsAlike (racing : RacingBackend) (request : BinaryRequest)
    (outcome : Fin racing.backends.length → Result QueryResult) : Prop where
  budget : (racing.invoked request).envelope.budgetMs = racing.effectiveBudgetMs request
  conclusive : ∀ r, racing.Handles request outcome (ok r) → r.isConclusive = true →
    r.isConclusiveFor request = true
  alone : racing.backends.length = 1 → ∀ i message s r,
    (racing.raceBesideUnknown request (outcome i) message).Reaches s → s.main = .inr r →
    ∀ o, racing.Handles request outcome o → statusOf o = some r.status

/-- A lone backend's outcome is passed on. -/
theorem handles_alone {o : Result QueryResult} (hone : self.backends.length = 1)
    (h : self.Handles request outcome o) : ∃ i, o = outcome i := by
  cases h with
  | unconfigured h0 =>
    rw [h0] at hone
    cases hone
  | @single i _ => exact ⟨i, rfl⟩
  | raced htwo => omega

/-- What a race returns as conclusive answers the request. -/
theorem handles_race {r : QueryResult} {o : Result QueryResult}
    (htwo : 2 ≤ self.backends.length) (h : self.Handles request outcome o) (ho : o = ok r)
    (hc : r.isConclusive = true) : r.isConclusiveFor request = true := by
  cases h with
  | unconfigured h0 => simp [h0] at htwo
  | single h1 => omega
  | raced _ hs hr =>
    obtain rfl := Outcome.ok.inj ho
    exact (validateArtifactsFor_of_returned hs hr).2 hc

/-- A result that answers the request, or an open one, is what the race returns too. -/
theorem status_raceBesideUnknown {q r : QueryResult} {message : String}
    {s : self.besideUnknown.RaceState}
    (hq : q.isConclusiveFor request = true ∨ q.isConclusive = false)
    (h : (self.raceBesideUnknown request (ok q) message).Reaches s) (hr : s.main = .inr r) :
    r.status = q.status := by
  obtain ⟨hresult, hend⟩ := h.result_eq rfl hr
  rw [raceBesideUnknown, Channel.result_untimed] at hresult
  rw [raceBesideUnknown, Channel.feed_timed] at hend
  -- whoever answers the request is the backend itself
  have hanswer : ∀ q', firstAnswer request (Channel.texts s.arrived) = some q' → q' = q := by
    intro q' ha
    obtain ⟨m, hm, ha⟩ := List.exists_of_findSome?_eq_some ha
    obtain ⟨rfl, hc⟩ := answer_eq_some.mp ha
    obtain ⟨⟨i, m⟩, hi, rfl⟩ := List.mem_map.mp hm
    have ho := delivery_eq_ok.mp (h.inv.sound i _ hi).1
    dsimp only at ho
    split at ho
    · exact (Outcome.ok.inj ho).symm
    · have hopen := QueryResult.isConclusive_of_isConclusiveFor hc
      rw [← Outcome.ok.inj ho] at hopen
      cases hopen
  rw [hresult]
  rcases @result_race self.besideUnknown request _ (Channel.texts s.arrived) with
    ⟨q', ha, hq'⟩ | ⟨ha, hopen⟩
  · rw [hq', hanswer q' ha]
  · rw [status_of_not_isConclusive hopen]
    rcases hq with hq | hq
    · have hzero : 0 < self.besideUnknown.backends.length := by
        simp [besideUnknown]
      have hnone := @no_answer_of_firstAnswer_eq_none self.besideUnknown request _ s
        (all_arrived ha hend) ha ⟨0, hzero⟩ q rfl
      rw [hq] at hnone
      cases hnone
    · exact (status_of_not_isConclusive hq).symm

/-- **When one backend is treated as many are**: the budget of the request is its own or there is no
default, and the backend's result answers the request or is open. -/
theorem treatsAlike_iff (self : RacingBackend) (request : BinaryRequest)
    (outcome : Fin self.backends.length → Result QueryResult) (hne : self.backends ≠ []) :
    self.TreatsAlike request outcome ↔ (self.backends.length = 1 →
      (request.envelope.budgetMs ≠ 0 ∨ self.defaultBudgetMs.getD 0 = 0) ∧
      ∀ i, ∃ q, outcome i = ok q ∧
        (q.isConclusiveFor request = true ∨ q.isConclusive = false)) := by
  constructor
  · intro h hone
    constructor
    · have hbudget := h.budget
      rw [invoked, if_pos hone, effectiveBudgetMs] at hbudget
      by_cases hzero : request.envelope.budgetMs = 0
      · rw [if_pos hzero, hzero] at hbudget
        exact .inr hbudget.symm
      · exact .inl hzero
    · intro i
      have hsingle : self.Handles request outcome (outcome i) := .single hone
      obtain ⟨s, r, hs, hr⟩ := (self.raceBesideUnknown request (outcome i) "").exists_returned
      have hstatus := h.alone hone i "" s r hs hr _ hsingle
      cases ho : outcome i with
      | err e =>
        rw [ho] at hstatus
        cases hstatus
      | panic =>
        rw [ho] at hstatus
        cases hstatus
      | ok q =>
        refine ⟨q, rfl, ?_⟩
        cases hq : q.isConclusive with
        | false => exact .inr rfl
        | true => exact .inl (h.conclusive q (ho ▸ hsingle) hq)
  · intro h
    by_cases hone : self.backends.length = 1
    · obtain ⟨hbudget, houtcome⟩ := h hone
      have hsame : ∀ i j : Fin self.backends.length, i = j := by
        intro i j
        exact Fin.ext (by omega)
      refine ⟨?_, fun r hr hc => ?_, fun _ i message s r hs hr o ho => ?_⟩
      · rw [invoked, if_pos hone, effectiveBudgetMs]
        split
        · rcases hbudget with hbudget | hbudget
          · contradiction
          · rw [hbudget]
            assumption
        · rfl
      · obtain ⟨i, ho⟩ := handles_alone hone hr
        obtain ⟨q, hq, hanswers⟩ := houtcome i
        obtain rfl : r = q := Outcome.ok.inj (ho.trans hq)
        exact hanswers.resolve_right (by simp [hc])
      · obtain ⟨j, rfl⟩ := handles_alone hone ho
        obtain ⟨q, hq, hanswers⟩ := houtcome i
        rw [hq] at hs
        rw [hsame j i, hq, status_raceBesideUnknown hanswers hs hr]
        rfl
    · have hlen : self.backends.length ≠ 0 := fun h => hne (List.length_eq_zero_iff.mp h)
      refine ⟨?_, fun r hr hc => ?_, fun h1 => absurd h1 hone⟩
      · rw [invoked, if_neg hone]
        split
        · rfl
        · rw [effectiveBudgetMs, if_neg ‹_›]
      · exact handles_race (by omega) hr rfl hc

theorem treatsAlike_of_own_budget :
    (RacingBackend.mk [⟨"decides", false, fun _ => ok (.ofSat none)⟩] (some 30000)).TreatsAlike
      ⟨⟨7, .solve, 0, 20, 0, 0, 0, 0, 0⟩, [], [], [], []⟩ fun _ => ok (.ofSat none) :=
  (treatsAlike_iff _ _ _ (by simp)).mpr fun _ =>
    ⟨.inl (by decide), fun _ => ⟨_, rfl, .inl (by decide)⟩⟩

/-- A lone backend that says `SAT` without the model that was asked for: it is given no budget, and
what it says is returned. -/
theorem not_treatsAlike_of_alone :
    let racing : RacingBackend := ⟨[⟨"decides", false, fun _ => ok (.ofSat none)⟩], some 30000⟩
    let request : BinaryRequest :=
      ⟨⟨7, .solve, RequestFlags.wantModel, 0, 0, 0, 0, 0, 0⟩, [], [], [], []⟩
    ¬ racing.TreatsAlike request (fun _ => ok (.ofSat none)) ∧
    (racing.invoked request).envelope.budgetMs = 0 ∧
    racing.effectiveBudgetMs request = 30000 ∧
    racing.Handles request (fun _ => ok (.ofSat none)) (ok (.ofSat none)) ∧
    (QueryResult.ofSat none).isConclusiveFor request = false := by
  intro racing request
  have hgiven : (racing.invoked request).envelope.budgetMs = 0 := by decide
  have hbudget : racing.effectiveBudgetMs request = 30000 := by decide
  refine ⟨fun h => ?_, hgiven, hbudget, ?_, by decide⟩
  · have hsame := h.budget
    rw [hgiven, hbudget] at hsame
    cases hsame
  · exact @Handles.single racing request (fun _ => ok (.ofSat none)) ⟨0, by decide⟩ rfl

end RacingBackend
end Server
end SmtServer
