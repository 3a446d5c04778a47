import Mathlib.Algebra.BigOperators.Group.Finset.Basic
import Mathlib.Data.Fintype.Basic
import Mathlib.Logic.Relation
import Mathlib.Tactic.Common

/-!
# `Channel` — many senders, one receiver

A set of threads, each of which sends at most one message over a FIFO channel and then hangs up,
and one thread that receives until it has what it wants or every sender is gone. What the
receiver does with a message is a parameter: it goes on with a new accumulator or stops with a
result.

Nothing is assumed about scheduling. `Step` has one constructor for each thing one thread can
do, and `arrived` records, for the statements only, the messages in the order in which they
entered the channel. The two facts the clients of this module need are that the result is a
function of that order (`Reaches.result_eq`) and that, without a timeout, the receiver is never
stuck and cannot be kept waiting forever (`exists_step`, `wellFounded_step`).
-/

namespace Lib

/-- How far a sending thread is. -/
inductive Phase where
  | running
  | sent
  | gone
  deriving DecidableEq

/-- What the threads do: `outcome i` is the message of thread `i`, `none` if it dies without
sending one; the receiver starts from `start`, handles a message with `onMessage` and returns
`onEnd` of its accumulator when there is nothing more to receive. -/
structure Channel (ι β γ ρ : Type) where
  outcome : ι → Option β
  timed : Bool
  start : γ
  onMessage : γ → β → γ ⊕ ρ
  onEnd : γ → ρ

namespace Channel

variable {ι β γ ρ : Type}

/-- A state of the system; `main` is the receiver, on the right once it has returned. -/
structure State (ι β γ ρ : Type) where
  phase : ι → Phase
  queue : List (ι × β)
  main : γ ⊕ ρ
  arrived : List (ι × β)

variable (P : Channel ι β γ ρ)

def init : State ι β γ ρ := ⟨fun _ => .running, [], .inl P.start, []⟩

/-- Everything that can happen next. -/
inductive Step [DecidableEq ι] : State ι β γ ρ → State ι β γ ρ → Prop
  | send {s : State ι β γ ρ} {i : ι} {m : β} :
    s.phase i = .running → P.outcome i = some m →
    Step s { s with
      phase := Function.update s.phase i .sent
      queue := s.queue ++ [(i, m)]
      arrived := s.arrived ++ [(i, m)] }
  | die {s : State ι β γ ρ} {i : ι} :
    s.phase i = .running → P.outcome i = none →
    Step s { s with phase := Function.update s.phase i .gone }
  | hangUp {s : State ι β γ ρ} {i : ι} :
    s.phase i = .sent → Step s { s with phase := Function.update s.phase i .gone }
  | receive {s : State ι β γ ρ} {g : γ} {i : ι} {m : β} {rest : List (ι × β)} :
    s.main = .inl g → s.queue = (i, m) :: rest →
    Step s { s with queue := rest, main := P.onMessage g m }
  | disconnect {s : State ι β γ ρ} {g : γ} :
    s.main = .inl g → s.queue = [] → (∀ i, s.phase i = .gone) →
    Step s { s with main := .inr (P.onEnd g) }
  | timeout {s : State ι β γ ρ} {g : γ} :
    P.timed = true → s.main = .inl g → Step s { s with main := .inr (P.onEnd g) }
  -- what is still in the channel when the receiver has returned is read by nobody who matters
  | drain {s : State ι β γ ρ} {r : ρ} {m : ι × β} {rest : List (ι × β)} :
    s.main = .inr r → s.queue = m :: rest → Step s { s with queue := rest }

/-- The states of all runs. -/
def Reaches [DecidableEq ι] (s : State ι β γ ρ) : Prop := Relation.ReflTransGen P.Step P.init s

/-! ## The receiver as a fold -/

/-- The receiver after a list of messages, if that is all it is ever given. -/
def feed : γ ⊕ ρ → List β → γ ⊕ ρ
  | a, [] => a
  | .inl g, m :: ms => feed (P.onMessage g m) ms
  | .inr r, _ :: ms => feed (.inr r) ms

/-- The value returned for messages that arrive in the given order. -/
def result (ms : List β) : ρ :=
  match P.feed (.inl P.start) ms with
  | .inl g => P.onEnd g
  | .inr r => r

@[simp] theorem feed_inr (r : ρ) (ms : List β) : P.feed (.inr r) ms = .inr r := by
  induction ms with
  | nil => rfl
  | cons m ms ih => exact ih

theorem feed_append (a : γ ⊕ ρ) (xs ys : List β) :
    P.feed a (xs ++ ys) = P.feed (P.feed a xs) ys := by
  induction xs generalizing a with
  | nil => rfl
  | cons x xs ih =>
    cases a with
    | inl g => exact ih _
    | inr r => exact ih _

/-- Whether there is a deadline makes no difference to what a message does. -/
theorem feed_timed (t : Bool) (a : γ ⊕ ρ) (ms : List β) :
    feed { P with timed := t } a ms = P.feed a ms := by
  induction ms generalizing a with
  | nil => rfl
  | cons m ms ih =>
    cases a with
    | inl g => exact ih _
    | inr r => exact ih _

theorem result_untimed (t : Bool) (ms : List β) : result { P with timed := t } ms = P.result ms := by
  rw [result, feed_timed]
  rfl

/-! ## What holds in every state -/

/-- The messages of a log, without their senders. -/
def texts (log : List (ι × β)) : List β := log.map Prod.snd

/-- The receiver and the log: while it receives, what it has not seen is in the channel; it
returns on a message, or because nothing more can come. -/
def MainInv (s : State ι β γ ρ) : Prop :=
  match s.main with
  | .inl g => ∃ taken, s.arrived = taken ++ s.queue ∧ P.feed (.inl P.start) (texts taken) = .inl g
  | .inr r =>
    P.feed (.inl P.start) (texts s.arrived) = .inr r ∨
    (P.timed = true ∧ ∃ taken rest g, s.arrived = taken ++ rest ∧
      P.feed (.inl P.start) (texts taken) = .inl g ∧ r = P.onEnd g) ∨
    ((∀ i, s.phase i = .gone) ∧
      ∃ g, P.feed (.inl P.start) (texts s.arrived) = .inl g ∧ r = P.onEnd g)

structure Inv (s : State ι β γ ρ) : Prop where
  /-- Only what a thread has to say is in the log. -/
  sound : ∀ i m, (i, m) ∈ s.arrived → P.outcome i = some m ∧ s.phase i ≠ .running
  /-- A thread that is through has said what it had to say. -/
  complete : ∀ i m, s.phase i ≠ .running → P.outcome i = some m → (i, m) ∈ s.arrived
  /-- Nobody speaks twice. -/
  nodup : (s.arrived.map Prod.fst).Nodup
  main : P.MainInv s

theorem inv_init : P.Inv P.init where
  sound := by simp [init]
  complete := by simp [init]
  nodup := by simp [init]
  main := ⟨[], rfl, rfl⟩

variable {P}

/-- A message in the channel extends the log, whatever the receiver is doing. -/
theorem MainInv.send {s : State ι β γ ρ} (h : P.MainInv s) {i : ι} {m : β} {φ : ι → Phase}
    (hi : s.phase i = .running) :
    P.MainInv { s with
      phase := φ, queue := s.queue ++ [(i, m)], arrived := s.arrived ++ [(i, m)] } := by
  unfold MainInv at h ⊢
  cases hm : s.main with
  | inl g =>
    simp only [hm] at h ⊢
    obtain ⟨taken, ha, hf⟩ := h
    exact ⟨taken, by rw [ha, List.append_assoc], hf⟩
  | inr r =>
    simp only [hm] at h ⊢
    rcases h with hf | ⟨ht, taken, rest, g, ha, hf, hr⟩ | ⟨hgone, -⟩
    · left
      simp only [texts, List.map_append] at hf ⊢
      rw [feed_append, hf, feed_inr]
    · exact .inr (.inl ⟨ht, taken, rest ++ [(i, m)], g, by rw [ha, List.append_assoc], hf, hr⟩)
    · rw [hgone i] at hi
      cases hi

/-- Nothing is lost when a thread leaves. -/
theorem MainInv.leave [DecidableEq ι] {s : State ι β γ ρ} (h : P.MainInv s) (i : ι) :
    P.MainInv { s with phase := Function.update s.phase i .gone } := by
  unfold MainInv at h ⊢
  cases hm : s.main with
  | inl g => simpa only [hm] using h
  | inr r =>
    simp only [hm] at h ⊢
    rcases h with hf | ht | ⟨hgone, hf⟩
    · exact .inl hf
    · exact .inr (.inl ht)
    · refine .inr (.inr ⟨fun j => ?_, hf⟩)
      by_cases hj : j = i
      · subst hj
        exact Function.update_self ..
      · rw [Function.update_of_ne hj]
        exact hgone j

theorem MainInv.receive {s : State ι β γ ρ} (h : P.MainInv s) {g : γ} {i : ι} {m : β}
    {rest : List (ι × β)} (hm : s.main = .inl g) (hq : s.queue = (i, m) :: rest) :
    P.MainInv { s with queue := rest, main := P.onMessage g m } := by
  simp only [MainInv, hm] at h
  obtain ⟨taken, ha, hf⟩ := h
  have hstep : P.feed (.inl P.start) (texts (taken ++ [(i, m)])) = P.onMessage g m := by
    simp only [texts, List.map_append] at hf ⊢
    rw [feed_append, hf]
    rfl
  have hlog : s.arrived = (taken ++ [(i, m)]) ++ rest := by
    rw [ha, hq, List.append_assoc, List.singleton_append]
  unfold MainInv
  cases hn : P.onMessage g m with
  | inl g' => exact ⟨_, hlog, hstep.trans hn⟩
  | inr r =>
    left
    simp only [hlog, texts, List.map_append] at hstep ⊢
    rw [feed_append, hstep, hn, feed_inr]

/-- A thread that leaves keeps the log, and what the log says of the others. -/
theorem Inv.leave [DecidableEq ι] {s : State ι β γ ρ} (h : P.Inv s) {i : ι}
    (hi : s.phase i ≠ .running ∨ P.outcome i = none) :
    P.Inv { s with phase := Function.update s.phase i .gone } := by
  refine ⟨fun j m hj => ?_, fun j m hj ho => ?_, h.nodup, h.main.leave i⟩
  · obtain ⟨ho, hp⟩ := h.sound j m hj
    refine ⟨ho, ?_⟩
    by_cases hji : j = i
    · simp [hji]
    · simpa only [ne_eq, Function.update_of_ne hji] using hp
  · by_cases hji : j = i
    · subst hji
      rcases hi with hi | hi
      · exact h.complete j m hi ho
      · rw [hi] at ho
        cases ho
    · simp only [ne_eq, Function.update_of_ne hji] at hj
      exact h.complete j m hj ho

/-- A message is logged under its sender, who had said nothing before. -/
theorem Inv.send [DecidableEq ι] {s : State ι β γ ρ} (h : P.Inv s) {i : ι} {m : β}
    (hi : s.phase i = .running) (ho : P.outcome i = some m) :
    P.Inv { s with
      phase := Function.update s.phase i .sent
      queue := s.queue ++ [(i, m)]
      arrived := s.arrived ++ [(i, m)] } := by
  refine ⟨fun j n hj => ?_, fun j n hj hn => ?_, ?_, h.main.send hi⟩
  · rcases List.mem_append.mp hj with hj | hj
    · obtain ⟨h1, h2⟩ := h.sound j n hj
      have hji : j ≠ i := by
        rintro rfl
        exact h2 hi
      exact ⟨h1, by simpa only [ne_eq, Function.update_of_ne hji] using h2⟩
    · simp only [List.mem_singleton, Prod.mk.injEq] at hj
      obtain ⟨rfl, rfl⟩ := hj
      exact ⟨ho, by simp⟩
  · by_cases hji : j = i
    · subst hji
      rw [ho, Option.some.injEq] at hn
      subst hn
      simp
    · simp only [ne_eq, Function.update_of_ne hji] at hj
      exact List.mem_append_left _ (h.complete j n hj hn)
  · rw [List.map_append, List.nodup_append]
    refine ⟨h.nodup, by simp, ?_⟩
    rintro j hj k hk rfl
    obtain ⟨⟨j', n⟩, hmem, rfl⟩ := List.mem_map.mp hj
    simp only [List.map_cons, List.map_nil, List.mem_singleton] at hk
    exact (h.sound _ _ hmem).2 (hk ▸ hi)

/-- What one step preserves. -/
theorem Inv.step [DecidableEq ι] {s s' : State ι β γ ρ} (h : P.Inv s) (hs : P.Step s s') :
    P.Inv s' := by
  cases hs with
  | send hi ho => exact h.send hi ho
  | die hi ho => exact h.leave (.inr ho)
  | hangUp hi => exact h.leave (.inl (by simp [hi]))
  | receive hm hq => exact ⟨h.sound, h.complete, h.nodup, h.main.receive hm hq⟩
  | @disconnect g hm hq hgone =>
    refine ⟨h.sound, h.complete, h.nodup, .inr (.inr ⟨hgone, g, ?_, rfl⟩)⟩
    have := h.main
    simp only [MainInv, hm, hq, List.append_nil] at this
    obtain ⟨taken, ha, hf⟩ := this
    rwa [ha]
  | @timeout g ht hm =>
    refine ⟨h.sound, h.complete, h.nodup, .inr (.inl ⟨ht, ?_⟩)⟩
    have := h.main
    simp only [MainInv, hm] at this
    obtain ⟨taken, ha, hf⟩ := this
    exact ⟨taken, s.queue, g, ha, hf, rfl⟩
  | drain hm hq =>
    refine ⟨h.sound, h.complete, h.nodup, ?_⟩
    have := h.main
    simp only [MainInv, hm] at this ⊢
    exact this

/-- What a whole run preserves. -/
theorem Reaches.inv [DecidableEq ι] {s : State ι β γ ρ} (h : P.Reaches s) : P.Inv s := by
  induction h with
  | refl => exact P.inv_init
  | tail _ hs ih => exact ih.step hs

/-- Without a timeout the result is a function of the order of arrival, and a receiver that ran
to the end has seen every message there was. -/
theorem Reaches.result_eq [DecidableEq ι] {s : State ι β γ ρ} (h : P.Reaches s) {r : ρ}
    (ht : P.timed = false) (hr : s.main = .inr r) :
    r = P.result (texts s.arrived) ∧
    (P.feed (.inl P.start) (texts s.arrived) = .inr r ∨
      ∀ i m, P.outcome i = some m → (i, m) ∈ s.arrived) := by
  have hi := h.inv
  have hm := hi.main
  simp only [MainInv, hr, ht, Bool.false_eq_true, false_and, false_or] at hm
  rcases hm with hf | ⟨hgone, g, hf, rfl⟩
  · exact ⟨by simp only [result, hf], .inl hf⟩
  · refine ⟨by simp only [result, hf], .inr fun i m ho => hi.complete i m ?_ ho⟩
    simp [hgone i]

/-- With a timeout it is the result of a part of the messages, in the same order. -/
theorem Reaches.result_timed [DecidableEq ι] {s : State ι β γ ρ} (h : P.Reaches s) {r : ρ}
    (hr : s.main = .inr r) : ∃ taken rest, s.arrived = taken ++ rest ∧
      r = P.result (texts taken) := by
  have hm := h.inv.main
  simp only [MainInv, hr] at hm
  rcases hm with hf | ⟨-, taken, rest, g, ha, hf, rfl⟩ | ⟨-, g, hf, rfl⟩
  · exact ⟨s.arrived, [], by simp, by simp only [result, hf]⟩
  · exact ⟨taken, rest, ha, by simp only [result, hf]⟩
  · exact ⟨s.arrived, [], by simp, by simp only [result, hf]⟩

/-! ## The receiver returns -/

/-- A receiver that has not returned can be brought further by some thread. -/
theorem exists_step [DecidableEq ι] {s : State ι β γ ρ} {g : γ} (hm : s.main = .inl g) :
    ∃ s', P.Step s s' := by
  cases hq : s.queue with
  | cons m rest => exact ⟨_, .receive hm hq⟩
  | nil =>
    by_cases hgone : ∀ i, s.phase i = .gone
    · exact ⟨_, .disconnect hm hq hgone⟩
    · push Not at hgone
      obtain ⟨i, hi⟩ := hgone
      cases hp : s.phase i with
      | gone => exact absurd hp hi
      | sent => exact ⟨_, .hangUp hp⟩
      | running =>
        cases ho : P.outcome i with
        | some m => exact ⟨_, .send hp ho⟩
        | none => exact ⟨_, .die hp ho⟩

/-- What a thread has left to do. -/
def Phase.left : Phase → Nat
  | .running => 3
  | .sent => 1
  | .gone => 0

/-- A bound on the number of steps from a state on. -/
def State.left [Fintype ι] (s : State ι β γ ρ) : Nat :=
  ∑ i, Phase.left (s.phase i) + s.queue.length + (if s.main.isLeft then 1 else 0)

theorem sum_left_update [Fintype ι] [DecidableEq ι] (φ : ι → Phase) (i : ι) (p : Phase) :
    ∑ j, Phase.left (Function.update φ i p j) + Phase.left (φ i) =
      ∑ j, Phase.left (φ j) + Phase.left p := by
  have h1 := Finset.add_sum_erase Finset.univ (fun j => Phase.left (φ j)) (Finset.mem_univ i)
  have h2 := Finset.add_sum_erase Finset.univ
    (fun j => Phase.left (Function.update φ i p j)) (Finset.mem_univ i)
  have h3 : ∑ j ∈ Finset.univ.erase i, Phase.left (Function.update φ i p j) =
      ∑ j ∈ Finset.univ.erase i, Phase.left (φ j) := by
    refine Finset.sum_congr rfl fun j hj => ?_
    rw [Function.update_of_ne (Finset.ne_of_mem_erase hj)]
  simp only [Function.update_self] at h1 h2
  omega

theorem Step.left_lt [Fintype ι] [DecidableEq ι] {s s' : State ι β γ ρ} (h : P.Step s s') :
    s'.left < s.left := by
  cases h with
  | @send i m hi ho =>
    have := sum_left_update s.phase i .sent
    simp only [State.left, hi, Phase.left, List.length_append, List.length_singleton] at this ⊢
    omega
  | @die i hi ho =>
    have := sum_left_update s.phase i .gone
    simp only [State.left, hi, Phase.left] at this ⊢
    omega
  | @hangUp i hi =>
    have := sum_left_update s.phase i .gone
    simp only [State.left, hi, Phase.left] at this ⊢
    omega
  | receive hm hq =>
    simp only [State.left, hm, hq, List.length_cons, Sum.isLeft_inl, if_true]
    split <;> omega
  | disconnect hm hq hgone => simp [State.left, hm]
  | timeout ht hm => simp [State.left, hm]
  | drain hm hq => simp [State.left, hm, hq]

/-- No schedule keeps the system going forever. -/
theorem wellFounded_step [Fintype ι] [DecidableEq ι] :
    WellFounded fun s' s : State ι β γ ρ => P.Step s s' :=
  Subrelation.wf (fun h => Step.left_lt h) (InvImage.wf State.left Nat.lt_wfRel.wf)

/-- Some run lets the receiver return. -/
theorem exists_returned [Fintype ι] [DecidableEq ι] (P : Channel ι β γ ρ) :
    ∃ (s : State ι β γ ρ) (r : ρ), P.Reaches s ∧ s.main = .inr r := by
  have hrun : ∀ s : State ι β γ ρ, P.Reaches s → ∃ (s : State ι β γ ρ) (r : ρ),
      P.Reaches s ∧ s.main = .inr r := by
    intro s
    induction s using wellFounded_step.induction (r := fun s' s => P.Step s s') with
    | _ s ih =>
      intro hs
      cases hm : s.main with
      | inr r => exact ⟨s, r, hs, hm⟩
      | inl g =>
        obtain ⟨s', hstep⟩ := exists_step (P := P) hm
        exact ih s' hstep (hs.tail hstep)
  exact hrun P.init .refl

end Channel
end Lib
