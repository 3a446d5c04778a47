import Mathlib.Algebra.Group.Nat.Defs
import Mathlib.Data.List.Forall2
import Mathlib.Order.Basic

/-!
# `Outcome` — what a call can do

A call into the modelled code ends in one of three ways: it returns a value, it returns an
error value, or it panics. The last one is kept apart from the second **deliberately**: an
error is an answer the caller sees and may handle, a panic is an index out of bounds, an
arithmetic overflow or a failed `expect`, and "no input makes it panic" is a statement of its
own.

Machine arithmetic that the code does not check (`a + b` on a machine word) is a computation
that may panic (`addU`, `mulU`, `subU`); arithmetic it does check (`checked_add`) is an
ordinary test on the exact result.
-/

namespace Lib

/-- The three ways a call ends. -/
inductive Outcome (ε : Type) (α : Type) where
  | ok (a : α)
  | err (e : ε)
  | panic
  deriving Repr, DecidableEq

namespace Outcome

variable {ε α β γ : Type}

protected def bind (x : Outcome ε α) (f : α → Outcome ε β) : Outcome ε β :=
  match x with
  | ok a => f a
  | err e => err e
  | panic => panic

instance : Monad (Outcome ε) where
  pure := ok
  bind := Outcome.bind

@[simp] theorem pure_eq (a : α) : (pure a : Outcome ε α) = ok a := rfl
@[simp] theorem ok_bind (a : α) (f : α → Outcome ε β) : (ok a >>= f) = f a := rfl
@[simp] theorem err_bind (e : ε) (f : α → Outcome ε β) : (err e >>= f) = err e := rfl
@[simp] theorem panic_bind (f : α → Outcome ε β) : ((panic : Outcome ε α) >>= f) = panic := rfl

instance : LawfulMonad (Outcome ε) :=
  LawfulMonad.mk' _ (fun x => by cases x <;> rfl) (fun _ _ => rfl)
    (fun x _ _ => by cases x <;> rfl)

/-- A sequence returns exactly when its first part returns and the rest, given that value,
does. The peeling lemma: every "what did acceptance check?" argument is a chain of these. -/
theorem bind_eq_ok {x : Outcome ε α} {f : α → Outcome ε β} {b : β} :
    (x >>= f) = ok b ↔ ∃ a, x = ok a ∧ f a = ok b := by
  cases x with
  | ok a => simp
  | err e => simp
  | panic => simp

/-- Fail with `e` unless `c` holds. -/
def ensure (c : Prop) [Decidable c] (e : ε) : Outcome ε Unit := if c then ok () else err e

@[simp] theorem ensure_eq_ok {c : Prop} [Decidable c] {e : ε} {u : Unit} :
    ensure c e = ok u ↔ c := by
  unfold ensure
  split <;> simp_all

theorem ensure_bind_eq_ok {c : Prop} [Decidable c] {e : ε} {f : Unit → Outcome ε β} {b : β} :
    (ensure c e >>= f) = ok b ↔ c ∧ f () = ok b := by
  rw [bind_eq_ok]
  constructor
  · rintro ⟨u, hu, hf⟩
    exact ⟨ensure_eq_ok.mp hu, hf⟩
  · rintro ⟨hc, hf⟩
    exact ⟨(), ensure_eq_ok.mpr hc, hf⟩

/-- `Option::ok_or`. -/
def ofOption (o : Option α) (e : ε) : Outcome ε α :=
  match o with
  | some a => ok a
  | none => err e

@[simp] theorem ofOption_eq_ok {o : Option α} {e : ε} {a : α} :
    ofOption o e = ok a ↔ o = some a := by
  cases o <;> simp [ofOption]

/-- `expect`, an index: the value, or a panic. -/
def expect (o : Option α) : Outcome ε α :=
  match o with
  | some a => ok a
  | none => panic

@[simp] theorem expect_some (a : α) : (expect (some a) : Outcome ε α) = ok a := rfl

@[simp] theorem expect_eq_ok {o : Option α} {a : α} :
    (expect o : Outcome ε α) = ok a ↔ o = some a := by
  cases o <;> simp [expect]

/-- The range `xs[start..stop]`, or a panic. -/
def slice (xs : List α) (start stop : Nat) : Outcome ε (List α) :=
  if start ≤ stop ∧ stop ≤ xs.length then ok ((xs.drop start).take (stop - start)) else panic

theorem slice_of_le {xs : List α} {start stop : Nat} (h₁ : start ≤ stop)
    (h₂ : stop ≤ xs.length) :
    (slice xs start stop : Outcome ε (List α)) = ok ((xs.drop start).take (stop - start)) :=
  if_pos ⟨h₁, h₂⟩

/-! ## Never a panic -/

/-- The call returns a value or an error. -/
def Safe (x : Outcome ε α) : Prop := x ≠ panic

@[simp] theorem safe_ok (a : α) : Safe (ok a : Outcome ε α) := by simp [Safe]
@[simp] theorem safe_err (e : ε) : Safe (err e : Outcome ε α) := by simp [Safe]
@[simp] theorem not_safe_panic : ¬ Safe (panic : Outcome ε α) := by simp [Safe]

theorem Safe.bind {x : Outcome ε α} {f : α → Outcome ε β} (hx : Safe x)
    (hf : ∀ a, x = ok a → Safe (f a)) : Safe (x >>= f) := by
  cases x with
  | ok a => exact hf a rfl
  | err e => simp
  | panic => exact absurd hx (by simp)

@[simp] theorem safe_ensure {c : Prop} [Decidable c] {e : ε} : Safe (ensure c e) := by
  unfold ensure
  split <;> simp

@[simp] theorem safe_ofOption {o : Option α} {e : ε} : Safe (ofOption o e) := by
  cases o <;> simp [ofOption]

/-- The call does not panic, and a value it returns satisfies `Q`. -/
def Yields (x : Outcome ε α) (Q : α → Prop) : Prop := Safe x ∧ ∀ a, x = ok a → Q a

theorem yields_ok {a : α} {Q : α → Prop} (h : Q a) : Yields (ok a : Outcome ε α) Q := by
  refine ⟨safe_ok a, ?_⟩
  intro b hb
  exact Outcome.ok.inj hb ▸ h

theorem Yields.bind {x : Outcome ε α} {f : α → Outcome ε β} {P : α → Prop} {Q : β → Prop}
    (hx : Yields x P) (hf : ∀ a, x = ok a → P a → Yields (f a) Q) : Yields (x >>= f) Q := by
  refine ⟨hx.1.bind fun a ha => (hf a ha (hx.2 a ha)).1, ?_⟩
  intro b hb
  obtain ⟨a, ha, hb⟩ := bind_eq_ok.mp hb
  exact (hf a ha (hx.2 a ha)).2 b hb

/-- A call of which only its own equation is known. -/
theorem Safe.yields {x : Outcome ε α} (h : Safe x) : Yields x fun a => x = ok a :=
  ⟨h, fun _ ha => ha⟩

theorem Yields.mono {x : Outcome ε α} {P Q : α → Prop} (hx : Yields x P) (h : ∀ a, P a → Q a) :
    Yields x Q :=
  ⟨hx.1, fun a ha => h a (hx.2 a ha)⟩

/-! ## Loops

A `for` loop over `0..n` is a `foldlM` over the range when it carries a state and a `forM` when
it only checks. -/

variable {σ : Type}

theorem foldlM_range_succ (f : σ → Nat → Outcome ε σ) (s : σ) (n : Nat) :
    (List.range (n + 1)).foldlM f s = (List.range n).foldlM f s >>= fun t => f t n := by
  rw [List.range_succ, List.foldlM_append]
  refine bind_congr fun t => ?_
  rw [List.foldlM_cons]
  cases f t n <;> rfl

/-- A loop whose rounds all return is the loop over what they return. -/
theorem foldlM_eq_foldl {f : σ → α → Outcome ε σ} {g : σ → α → σ} {xs : List α}
    (h : ∀ x ∈ xs, ∀ s, f s x = ok (g s x)) (s : σ) : xs.foldlM f s = ok (xs.foldl g s) := by
  induction xs generalizing s with
  | nil => rfl
  | cons x xs ih =>
    rw [List.foldlM_cons, h x (by simp), ok_bind, ih fun y hy => h y (by simp [hy])]
    rfl

theorem foldlM_congr {f g : σ → α → Outcome ε σ} {xs : List α}
    (h : ∀ x ∈ xs, ∀ s, f s x = g s x) (s : σ) : xs.foldlM f s = xs.foldlM g s := by
  induction xs generalizing s with
  | nil => rfl
  | cons x xs ih =>
    rw [List.foldlM_cons, List.foldlM_cons, h x (by simp)]
    exact bind_congr fun s' => ih (fun y hy => h y (by simp [hy])) s'

/-! An `Except` that a loop leaves early with is the call that never panics. -/

def fromExcept : Except ε α → Outcome ε α
  | .ok a => ok a
  | .error e => err e

theorem fromExcept_bind (x : Except ε α) (f : α → Except ε β) :
    fromExcept (x >>= f) = fromExcept x >>= fun a => fromExcept (f a) := by
  cases x <;> rfl

theorem fromExcept_foldlM (f : σ → α → Except ε σ) (xs : List α) (s : σ) :
    fromExcept (xs.foldlM f s) = xs.foldlM (fun s x => fromExcept (f s x)) s := by
  induction xs generalizing s with
  | nil => rfl
  | cons x xs ih =>
    rw [List.foldlM_cons, List.foldlM_cons, fromExcept_bind]
    exact bind_congr fun s' => ih s'

/-- If round `i` is a check `P i` that takes `st i` to `st (i + 1)`, the loop is all the checks
and takes `st 0` to `st n`. -/
theorem foldlM_range_eq_ok {f : σ → Nat → Outcome ε σ} {st : Nat → σ} {P : Nat → Prop} {n : Nat}
    (h : ∀ i < n, ∀ t, f (st i) i = ok t ↔ P i ∧ t = st (i + 1)) {t : σ} :
    (List.range n).foldlM f (st 0) = ok t ↔ (∀ i < n, P i) ∧ t = st n := by
  induction n generalizing t with
  | zero => simp [eq_comm]
  | succ n ih =>
    have ih' := fun t => ih (fun i hi => h i (by omega)) (t := t)
    rw [foldlM_range_succ, bind_eq_ok]
    constructor
    · rintro ⟨u, hu, ht⟩
      obtain ⟨hp, rfl⟩ := (ih' u).mp hu
      obtain ⟨hpn, rfl⟩ := (h n (by omega) t).mp ht
      refine ⟨fun i hi => ?_, rfl⟩
      by_cases hin : i = n
      · exact hin ▸ hpn
      · exact hp i (by omega)
    · rintro ⟨hp, rfl⟩
      exact ⟨st n, (ih' _).mpr ⟨fun i hi => hp i (by omega), rfl⟩,
        (h n (by omega) _).mpr ⟨hp n (by omega), rfl⟩⟩

/-- A loop whose rounds never panic from the states it reaches never panics. -/
theorem safe_foldlM_range {f : σ → Nat → Outcome ε σ} {s : σ} {n : Nat} {I : Nat → σ → Prop}
    (h0 : I 0 s) (hstep : ∀ i < n, ∀ t, I i t → Safe (f t i) ∧ ∀ u, f t i = ok u → I (i + 1) u) :
    Safe ((List.range n).foldlM f s) ∧ ∀ t, (List.range n).foldlM f s = ok t → I n t := by
  induction n with
  | zero =>
    refine ⟨by simp, fun t ht => ?_⟩
    obtain rfl := Outcome.ok.inj ht
    exact h0
  | succ n ih =>
    obtain ⟨hs, hi⟩ := ih fun i hi => hstep i (by omega)
    rw [foldlM_range_succ]
    refine ⟨hs.bind fun t ht => (hstep n (by omega) t (hi t ht)).1, fun t ht => ?_⟩
    obtain ⟨u, hu, ht⟩ := bind_eq_ok.mp ht
    exact (hstep n (by omega) u (hi u hu)).2 t ht

theorem yields_foldlM_range {f : σ → Nat → Outcome ε σ} {s : σ} {n : Nat} (I : Nat → σ → Prop)
    (h0 : I 0 s) (hstep : ∀ i < n, ∀ t, I i t → Yields (f t i) (I (i + 1))) :
    Yields ((List.range n).foldlM f s) (I n) :=
  safe_foldlM_range h0 hstep

theorem yields_foldlM {f : σ → α → Outcome ε σ} {s : σ} {xs : List α} (I : List α → σ → Prop)
    (h0 : I [] s) (hstep : ∀ ys x t, ys ++ [x] <+: xs → I ys t → Yields (f t x) (I (ys ++ [x]))) :
    Yields (xs.foldlM f s) (I xs) := by
  have key : ∀ zs ys t, ys ++ zs = xs → I ys t → Yields (zs.foldlM f t) (I xs) := by
    intro zs
    induction zs with
    | nil =>
      intro ys t hys ht
      rw [List.append_nil] at hys
      exact yields_ok (hys ▸ ht)
    | cons z zs ih =>
      intro ys t hys ht
      rw [List.foldlM_cons]
      refine (hstep ys z t ⟨zs, by simpa using hys⟩ ht).bind ?_
      intro u _ hu
      exact ih (ys ++ [z]) u (by simpa using hys) hu
  exact key xs [] s rfl h0

theorem forM_eq_ok {f : α → Outcome ε PUnit} {xs : List α} {u : PUnit} :
    forM xs f = ok u ↔ ∀ x ∈ xs, f x = ok ⟨⟩ := by
  induction xs with
  | nil => simp
  | cons x xs ih =>
    rw [List.forM_cons, bind_eq_ok, List.forall_mem_cons, ih]
    exact ⟨fun ⟨_, hx, hxs⟩ => ⟨hx, hxs⟩, fun ⟨hx, hxs⟩ => ⟨_, hx, hxs⟩⟩

theorem safe_forM {f : α → Outcome ε PUnit} {xs : List α} (h : ∀ x ∈ xs, Safe (f x)) :
    Safe (forM xs f) := by
  induction xs with
  | nil => simp
  | cons x xs ih =>
    rw [List.forM_cons]
    exact (h x (by simp)).bind fun _ _ => ih fun y hy => h y (by simp [hy])

theorem safe_mapM {f : α → Outcome ε β} {xs : List α} (h : ∀ x ∈ xs, Safe (f x)) :
    Safe (xs.mapM f) := by
  induction xs with
  | nil => simp
  | cons x xs ih =>
    rw [List.mapM_cons]
    exact (h x (by simp)).bind fun _ _ => (ih fun y hy => h y (by simp [hy])).bind fun _ _ => safe_ok _

/-- A `mapM` returns only if the call returns for every element. -/
theorem exists_ok_of_mapM {f : α → Outcome ε β} {xs : List α} {ys : List β}
    (h : xs.mapM f = ok ys) {x : α} (hx : x ∈ xs) : ∃ y, f x = ok y := by
  induction xs generalizing ys with
  | nil => simp at hx
  | cons z zs ih =>
    rw [List.mapM_cons, bind_eq_ok] at h
    obtain ⟨y, hy, h⟩ := h
    obtain ⟨ys', hys, -⟩ := bind_eq_ok.mp h
    rcases List.mem_cons.mp hx with rfl | hx
    · exact ⟨y, hy⟩
    · exact ih hys hx

/-- What neither panics nor returns a value is an error. -/
theorem Safe.exists_err {x : Outcome ε α} (hx : Safe x) (hno : ∀ a, x ≠ ok a) :
    ∃ e, x = err e := by
  cases x with
  | ok a => exact absurd rfl (hno a)
  | err e => exact ⟨e, rfl⟩
  | panic => exact absurd hx (by simp)

/-! ## Always a value -/

/-- The call returns a value, and the value satisfies `Q`. -/
def Answers (x : Outcome ε α) (Q : α → Prop) : Prop := ∃ a, x = ok a ∧ Q a

theorem answers_ok {a : α} {Q : α → Prop} (h : Q a) : Answers (ok a : Outcome ε α) Q :=
  ⟨a, rfl, h⟩

theorem Answers.bind {x : Outcome ε α} {f : α → Outcome ε β} {P : α → Prop} {Q : β → Prop}
    (hx : Answers x P) (hf : ∀ a, P a → Answers (f a) Q) : Answers (x >>= f) Q := by
  obtain ⟨a, rfl, ha⟩ := hx
  exact hf a ha

theorem Answers.mono {x : Outcome ε α} {P Q : α → Prop} (hx : Answers x P)
    (h : ∀ a, P a → Q a) : Answers x Q := by
  obtain ⟨a, hxa, ha⟩ := hx
  exact ⟨a, hxa, h a ha⟩

/-! Of an optional answer something is known when there is one. -/

theorem answers_none {P : α → Prop} :
    Answers (ok none : Outcome ε (Option α)) fun o => ∀ a, o = some a → P a :=
  answers_ok fun _ h => nomatch h

theorem answers_some {a : α} {P : α → Prop} (h : P a) :
    Answers (ok (some a) : Outcome ε (Option α)) fun o => ∀ a, o = some a → P a :=
  answers_ok fun _ hb => Option.some.inj hb ▸ h

theorem Answers.map {x : Outcome ε (Option α)} {f : α → β} {P : α → Prop} {Q : β → Prop}
    (hx : Answers x fun o => ∀ a, o = some a → P a) (hf : ∀ a, P a → Q (f a)) :
    Answers (x >>= fun o => pure (o.map f)) fun o => ∀ b, o = some b → Q b := by
  refine hx.bind fun o ho => ?_
  cases o with
  | none => exact answers_none
  | some a => exact answers_some (hf a (ho a rfl))

/-- What is known of the answer holds of the value that was returned. -/
theorem Answers.of_eq {x : Outcome ε α} {a : α} {Q : α → Prop} (hx : Answers x Q) (h : x = ok a) :
    Q a := by
  obtain ⟨b, hb, hq⟩ := hx
  exact Outcome.ok.inj (h.symm.trans hb) ▸ hq

/-- The answer, together with the equation that says where it comes from. -/
theorem Answers.with_eq {x : Outcome ε α} {Q : α → Prop} (hx : Answers x Q) :
    Answers x fun a => x = ok a ∧ Q a := by
  obtain ⟨a, hxa, ha⟩ := hx
  exact ⟨a, hxa, hxa, ha⟩

/-! A loop that leaves its function early is an `anyM` or an `allM`, and one that fills a vector is
a `mapM`. -/

theorem answers_mapM {f : α → Outcome ε β} {R : α → β → Prop} {xs : List α}
    (h : ∀ x ∈ xs, Answers (f x) (R x)) : Answers (xs.mapM f) (List.Forall₂ R xs) := by
  induction xs with
  | nil => exact answers_ok .nil
  | cons x xs ih =>
    rw [List.mapM_cons]
    refine (h x (by simp)).bind fun y hy => ?_
    refine (ih fun z hz => h z (by simp [hz])).bind fun ys hys => ?_
    exact answers_ok (.cons hy hys)

theorem mapM_of_forall {f : α → Outcome ε β} {g : α → β} {xs : List α}
    (h : ∀ x ∈ xs, f x = ok (g x)) : xs.mapM f = ok (xs.map g) := by
  induction xs with
  | nil => rfl
  | cons x xs ih =>
    rw [List.mapM_cons, h x (by simp), ok_bind, ih fun y hy => h y (by simp [hy])]
    rfl

/-- A loop that carries a state and may be refused; `I` speaks of the elements done so far. -/
theorem foldlM_cases {σ : Type} {f : σ → α → Outcome ε σ} {xs : List α} {st : σ}
    (I : List α → σ → Prop) (E : ε → Prop) (h0 : I [] st)
    (hstep : ∀ done x st, done ++ [x] <+: xs → I done st →
      Answers (f st x) (I (done ++ [x])) ∨ ∃ e, f st x = err e ∧ E e) :
    Answers (xs.foldlM f st) (I xs) ∨ ∃ e, xs.foldlM f st = err e ∧ E e := by
  have key : ∀ (todo done : List α) (st : σ), done ++ todo = xs → I done st →
      Answers (todo.foldlM f st) (I xs) ∨ ∃ e, todo.foldlM f st = err e ∧ E e := by
    intro todo
    induction todo with
    | nil =>
      intro done st hxs h
      rw [List.append_nil] at hxs
      exact .inl (answers_ok (hxs ▸ h))
    | cons x todo ih =>
      intro done st hxs h
      rw [List.foldlM_cons]
      rcases hstep done x st ⟨todo, by simpa using hxs⟩ h with ⟨st', hst', h'⟩ | ⟨e, he, hE⟩
      · rw [hst', ok_bind]
        exact ih (done ++ [x]) st' (by simpa using hxs) h'
      · rw [he]
        exact .inr ⟨e, rfl, hE⟩
  exact key xs [] st rfl h0

/-- A loop that carries a state; `I` speaks of the elements done so far. -/
theorem answers_foldlM {σ : Type} {f : σ → α → Outcome ε σ} {xs : List α} {st : σ}
    (I : List α → σ → Prop) (h0 : I [] st)
    (hstep : ∀ x ∈ xs, ∀ done st, I done st → Answers (f st x) (I (done ++ [x]))) :
    Answers (xs.foldlM f st) (I xs) := by
  rcases foldlM_cases I (fun _ : ε => False) h0 fun done x st hx h =>
    .inl (hstep x (hx.subset (by simp)) done st h) with h | ⟨-, -, h⟩
  · exact h
  · exact h.elim

/-- A loop over a range that carries a state; `I` counts the rounds. -/
theorem answers_foldlM_range {σ : Type} {f : σ → Nat → Outcome ε σ} {st : σ} {n : Nat}
    (I : Nat → σ → Prop) (h0 : I 0 st)
    (hstep : ∀ i < n, ∀ st, I i st → Answers (f st i) (I (i + 1))) :
    Answers ((List.range n).foldlM f st) (I n) := by
  induction n with
  | zero => exact answers_ok h0
  | succ n ih =>
    rw [foldlM_range_succ]
    exact (ih fun i hi => hstep i (Nat.lt_succ_of_lt hi)).bind (hstep n (Nat.lt_succ_self n))

/-- What a `mapM` returns comes from an element of the list. -/
theorem exists_of_forall₂ {R : α → β → Prop} {xs : List α} {ys : List β}
    (h : List.Forall₂ R xs ys) : ∀ y ∈ ys, ∃ x ∈ xs, R x y := by
  induction h with
  | nil => simp
  | cons hxy _ ih =>
    refine List.forall_mem_cons.mpr ⟨⟨_, by simp, hxy⟩, fun z hz => ?_⟩
    obtain ⟨x, hx, hr⟩ := ih z hz
    exact ⟨x, by simp [hx], hr⟩

theorem answers_anyM {f : α → Outcome ε Bool} {P : α → Prop} {xs : List α}
    (h : ∀ x ∈ xs, Answers (f x) fun found => found = true → P x) :
    Answers (xs.anyM f) fun found => found = true → ∃ x ∈ xs, P x := by
  induction xs with
  | nil => exact answers_ok fun h => nomatch h
  | cons x xs ih =>
    rw [List.anyM]
    refine (h x (by simp)).bind fun found hfound => ?_
    cases found with
    | true => exact answers_ok fun _ => ⟨x, by simp, hfound rfl⟩
    | false =>
      refine (ih fun z hz => h z (by simp [hz])).mono fun b hb hbt => ?_
      obtain ⟨y, hy, hp⟩ := hb hbt
      exact ⟨y, by simp [hy], hp⟩

theorem answers_allM {f : α → Outcome ε Bool} {P : α → Prop} {xs : List α}
    (h : ∀ x ∈ xs, Answers (f x) fun found => found = true → P x) :
    Answers (xs.allM f) fun found => found = true → ∀ x ∈ xs, P x := by
  induction xs with
  | nil => exact answers_ok fun _ x hx => nomatch hx
  | cons x xs ih =>
    rw [List.allM]
    refine (h x (by simp)).bind fun found hfound => ?_
    cases found with
    | false => exact answers_ok fun h => nomatch h
    | true =>
      refine (ih fun z hz => h z (by simp [hz])).mono fun b hb hbt => ?_
      exact List.forall_mem_cons.mpr ⟨hfound rfl, hb hbt⟩

theorem answers_findSomeM? {f : α → Outcome ε (Option β)} {P : α → β → Prop} {xs : List α}
    (h : ∀ x ∈ xs, Answers (f x) fun o => ∀ b, o = some b → P x b) :
    Answers (xs.findSomeM? f) fun o => ∀ b, o = some b → ∃ x ∈ xs, P x b := by
  induction xs with
  | nil => exact answers_ok fun b hb => nomatch hb
  | cons x xs ih =>
    rw [List.findSomeM?]
    refine (h x (by simp)).bind fun o ho => ?_
    cases o with
    | some b =>
      refine answers_ok fun c hc => ⟨x, by simp, ?_⟩
      exact ho c hc
    | none =>
      refine (ih fun y hy => h y (by simp [hy])).mono fun o ho b hb => ?_
      obtain ⟨y, hy, hp⟩ := ho b hb
      exact ⟨y, by simp [hy], hp⟩

/-- What a filter keeps was in the list and passed its test. -/
theorem answers_filterM {f : α → Outcome ε Bool} {P : α → Prop} {xs : List α}
    (h : ∀ x ∈ xs, Answers (f x) fun kept => kept = true → P x) :
    Answers (xs.filterM f) fun ys => ∀ y ∈ ys, y ∈ xs ∧ P y := by
  have key : ∀ (todo acc : List α), (∀ x ∈ todo, x ∈ xs) → (∀ y ∈ acc, y ∈ xs ∧ P y) →
      Answers (todo.filterAuxM f acc) fun ys => ∀ y ∈ ys, y ∈ xs ∧ P y := by
    intro todo
    induction todo with
    | nil =>
      intro acc _ hacc
      exact answers_ok hacc
    | cons x todo ih =>
      intro acc htodo hacc
      rw [List.forall_mem_cons] at htodo
      rw [List.filterAuxM]
      refine (h x htodo.1).bind fun kept hkept => ih _ htodo.2 ?_
      cases kept with
      | false => exact hacc
      | true => exact List.forall_mem_cons.mpr ⟨⟨htodo.1, hkept rfl⟩, hacc⟩
  refine (key xs [] (fun _ hx => hx) (by simp)).bind fun ys hys => answers_ok fun y hy => ?_
  exact hys y (List.mem_reverse.mp hy)

theorem Answers.and {x y : Outcome ε Bool} {P Q : Prop}
    (hx : Answers x fun found => found = true → P) (hy : Answers y fun found => found = true → Q) :
    Answers (x <&&> y) fun found => found = true → P ∧ Q := by
  refine hx.bind fun found hp => ?_
  cases found with
  | false => exact answers_ok fun h => nomatch h
  | true => exact hy.mono fun _ hq h => ⟨hp rfl, hq h⟩

theorem Answers.or {x y : Outcome ε Bool} {P : Prop}
    (hx : Answers x fun found => found = true → P) (hy : Answers y fun found => found = true → P) :
    Answers (x <||> y) fun found => found = true → P := by
  refine hx.bind fun found hp => ?_
  cases found with
  | false => exact hy
  | true => exact answers_ok hp

/-- A search whose test decides `P` finds an element with `P` if there is one. -/
theorem answers_findM? {f : α → Outcome ε Bool} {P : α → Prop} {xs : List α}
    (h : ∀ x ∈ xs, Answers (f x) fun found => found = true ↔ P x) :
    Answers (xs.findM? f) fun o =>
      (∀ x, o = some x → x ∈ xs ∧ P x) ∧ (o = none → ∀ x ∈ xs, ¬P x) := by
  induction xs with
  | nil => exact answers_ok ⟨fun _ h => (nomatch h), fun _ _ h => (nomatch h)⟩
  | cons x xs ih =>
    rw [List.findM?]
    refine (h x (by simp)).bind fun found hfound => ?_
    cases found with
    | true =>
      refine answers_ok ⟨?_, fun h => nomatch h⟩
      rintro _ ⟨rfl⟩
      exact ⟨by simp, hfound.mp rfl⟩
    | false =>
      refine (ih fun z hz => h z (by simp [hz])).mono fun o ho => ⟨?_, ?_⟩
      · intro y hy
        exact ⟨List.mem_cons_of_mem _ (ho.1 y hy).1, (ho.1 y hy).2⟩
      · intro hnone
        exact List.forall_mem_cons.mpr ⟨fun hp => (nomatch hfound.mpr hp), ho.2 hnone⟩

/-! ## If it returns

What is known of a call of which it is not known that it returns. -/

/-- A value that the call returns satisfies `Q`. -/
def Only (x : Outcome ε α) (Q : α → Prop) : Prop := ∀ a, x = ok a → Q a

theorem only_ok {a : α} {Q : α → Prop} (h : Q a) : Only (ok a : Outcome ε α) Q := by
  intro b hb
  exact Outcome.ok.inj hb ▸ h

theorem only_panic {Q : α → Prop} : Only (panic : Outcome ε α) Q := fun _ h => nomatch h

theorem Only.bind {x : Outcome ε α} {f : α → Outcome ε β} {P : α → Prop} {Q : β → Prop}
    (hx : Only x P) (hf : ∀ a, x = ok a → P a → Only (f a) Q) : Only (x >>= f) Q := by
  intro b hb
  obtain ⟨a, ha, hb⟩ := bind_eq_ok.mp hb
  exact hf a ha (hx a ha) b hb

/-- A call of which only its own equation is known. -/
theorem only_self (x : Outcome ε α) : Only x fun a => x = ok a := fun _ h => h

theorem Only.mono {x : Outcome ε α} {P Q : α → Prop} (hx : Only x P) (h : ∀ a, P a → Q a) :
    Only x Q :=
  fun a ha => h a (hx a ha)

theorem only_foldlM {σ : Type} {f : σ → α → Outcome ε σ} {xs : List α} {st : σ} {I : σ → Prop}
    (h0 : I st) (hstep : ∀ x ∈ xs, ∀ st, I st → Only (f st x) I) : Only (xs.foldlM f st) I := by
  induction xs generalizing st with
  | nil => exact only_ok h0
  | cons x xs ih =>
    rw [List.foldlM_cons]
    refine (hstep x (by simp) st h0).bind fun st' _ h' => ?_
    exact ih h' fun y hy => hstep y (by simp [hy])

/-- A loop that returned has returned from every round. -/
theorem of_foldlM {σ : Type} {f : σ → α → Outcome ε σ} {xs : List α} {st st' : σ}
    (h : xs.foldlM f st = ok st') : ∀ x ∈ xs, ∃ before after, f before x = ok after := by
  induction xs generalizing st with
  | nil => simp
  | cons x xs ih =>
    rw [List.foldlM_cons] at h
    obtain ⟨next, hx, hxs⟩ := bind_eq_ok.mp h
    exact List.forall_mem_cons.mpr ⟨⟨st, next, hx⟩, ih hxs⟩

theorem only_none {P : α → Prop} : Only (ok none : Outcome ε (Option α)) fun o => ∀ a, o = some a → P a :=
  only_ok fun _ h => nomatch h

theorem only_some {a : α} {P : α → Prop} (h : P a) :
    Only (ok (some a) : Outcome ε (Option α)) fun o => ∀ b, o = some b → P b :=
  only_ok fun _ hb => Option.some.inj hb ▸ h

/-! ## Tests that succeed

A matcher is a chain of tests that leaves with a fixed answer at the first that fails. When it ends
with another answer, the tests have succeeded. -/

/-- The two answers differ, as their constructors say. -/
class Apart (d r : α) : Prop where
  ne : d ≠ r

instance : Apart false true := ⟨Bool.false_ne_true⟩

instance : Apart true false := ⟨Bool.false_ne_true.symm⟩

instance {a : α} : Apart none (some a) := ⟨fun h => nomatch h⟩

instance {x : α} {xs : List α} : Apart [] (x :: xs) := ⟨fun h => nomatch h⟩

/-- `x.unwrap_or(d)`, which a panic gets through. -/
def unwrapOr (x : Outcome ε α) (d : α) : Outcome ε α :=
  match x with
  | ok a => ok a
  | err _ => ok d
  | panic => panic

theorem Answers.unwrapOr {x : Outcome ε α} {d : α} {Q : α → Prop} (hx : Answers x Q) :
    Answers (x.unwrapOr d) Q := by
  obtain ⟨a, rfl, ha⟩ := hx
  exact answers_ok ha

theorem of_unwrapOr {x : Outcome ε α} {a d : α} (h : x.unwrapOr d = ok a)
    [hne : Apart d a] : x = ok a := by
  cases x with
  | ok b => exact h
  | err e => exact absurd (Outcome.ok.inj h) hne.ne
  | panic => cases h

theorem and_eq_true {x y : Outcome ε Bool} : (x <&&> y) = ok true ↔ x = ok true ∧ y = ok true := by
  refine bind_eq_ok.trans ⟨?_, ?_⟩
  · rintro ⟨b, hx, h⟩
    cases b with
    | true => exact ⟨hx, h⟩
    | false => cases h
  · rintro ⟨hx, hy⟩
    exact ⟨true, hx, hy⟩

theorem or_eq_true {x y : Outcome ε Bool} :
    (x <||> y) = ok true ↔ x = ok true ∨ (x = ok false ∧ y = ok true) := by
  refine bind_eq_ok.trans ⟨?_, ?_⟩
  · rintro ⟨b, hx, h⟩
    cases b with
    | true => exact .inl hx
    | false => exact .inr ⟨hx, h⟩
  · rintro (hx | ⟨hx, hy⟩)
    · exact ⟨true, hx, rfl⟩
    · exact ⟨false, hx, hy⟩

theorem true_of_or {x y : Outcome ε Bool} (h : (x <||> y) = ok true) : x = ok true ∨ y = ok true :=
  (or_eq_true.mp h).imp_right And.right

/-- `if !x? { return Ok(d) }`. -/
theorem of_unless {x : Outcome ε Bool} {y : Outcome ε β} {d r : β}
    (h : (do if !(← x) then return d
             y) = ok r) [hne : Apart d r] : x = ok true ∧ y = ok r := by
  obtain ⟨b, hb, h⟩ := bind_eq_ok.mp h
  cases b with
  | true => exact ⟨hb, h⟩
  | false => exact absurd (Outcome.ok.inj h) hne.ne

/-- `if c { return Ok(d) }`. -/
theorem of_if {c : Prop} [Decidable c] {y : Outcome ε β} {d r : β}
    (h : (if c then ok d else y) = ok r) [hne : Apart d r] : ¬c ∧ y = ok r := by
  split at h
  · exact absurd (Outcome.ok.inj h) hne.ne
  · exact ⟨‹_›, h⟩

theorem exists_of_anyM {f : α → Outcome ε Bool} {xs : List α} (h : xs.anyM f = ok true) :
    ∃ x ∈ xs, f x = ok true := by
  induction xs with
  | nil => cases h
  | cons x xs ih =>
    rw [List.anyM] at h
    obtain ⟨b, hb, h⟩ := bind_eq_ok.mp h
    cases b with
    | true => exact ⟨x, by simp, hb⟩
    | false =>
      obtain ⟨y, hy, hf⟩ := ih h
      exact ⟨y, by simp [hy], hf⟩

theorem forall_of_allM {f : α → Outcome ε Bool} {xs : List α} (h : xs.allM f = ok true) :
    ∀ x ∈ xs, f x = ok true := by
  induction xs with
  | nil => simp
  | cons x xs ih =>
    rw [List.allM] at h
    obtain ⟨b, hb, h⟩ := bind_eq_ok.mp h
    cases b with
    | true => exact List.forall_mem_cons.mpr ⟨hb, ih h⟩
    | false => cases h

theorem exists_of_mapM {f : α → Outcome ε β} {xs : List α} {ys : List β} (h : xs.mapM f = ok ys) :
    ∀ y ∈ ys, ∃ x ∈ xs, f x = ok y := by
  induction xs generalizing ys with
  | nil =>
    cases h
    simp
  | cons x xs ih =>
    rw [List.mapM_cons] at h
    obtain ⟨y, hy, h⟩ := bind_eq_ok.mp h
    obtain ⟨rest, hrest, h⟩ := bind_eq_ok.mp h
    cases h
    refine List.forall_mem_cons.mpr ⟨⟨x, by simp, hy⟩, fun z hz => ?_⟩
    obtain ⟨x', hx', hf⟩ := ih hrest z hz
    exact ⟨x', by simp [hx'], hf⟩

theorem of_findM? {f : α → Outcome ε Bool} {xs : List α} {a : α} (h : xs.findM? f = ok (some a)) :
    a ∈ xs ∧ f a = ok true := by
  induction xs with
  | nil => cases h
  | cons x xs ih =>
    rw [List.findM?] at h
    obtain ⟨b, hb, h⟩ := bind_eq_ok.mp h
    cases b with
    | true =>
      obtain rfl := Option.some.inj (Outcome.ok.inj h)
      exact ⟨by simp, hb⟩
    | false => exact ⟨List.mem_cons_of_mem _ (ih h).1, (ih h).2⟩

theorem of_findSomeM? {f : α → Outcome ε (Option β)} {xs : List α} {b : β}
    (h : xs.findSomeM? f = ok (some b)) : ∃ x ∈ xs, f x = ok (some b) := by
  induction xs with
  | nil => cases h
  | cons x xs ih =>
    rw [List.findSomeM?] at h
    obtain ⟨o, ho, h⟩ := bind_eq_ok.mp h
    cases o with
    | some c =>
      obtain rfl := Option.some.inj (Outcome.ok.inj h)
      exact ⟨x, by simp, ho⟩
    | none =>
      obtain ⟨y, hy, hf⟩ := ih h
      exact ⟨y, by simp [hy], hf⟩

/-! ## Tests that end

Where it matters that a test succeeds, and not only what it says when it does, the tests before it
must return. -/

/-- The call returns a value. -/
def Returns (x : Outcome ε α) : Prop := ∃ a, x = ok a

@[simp] theorem returns_ok (a : α) : Returns (ok a : Outcome ε α) := ⟨a, rfl⟩

theorem Answers.returns {x : Outcome ε α} {Q : α → Prop} (h : Answers x Q) : Returns x :=
  h.imp fun _ h => h.1

/-- What is known of a test that succeeds is known of its answer. -/
theorem Returns.answers {x : Outcome ε Bool} {P : Prop} (hx : Returns x) (h : x = ok true → P) :
    Answers x fun found => found = true → P := by
  obtain ⟨b, rfl⟩ := hx
  refine answers_ok ?_
  rintro rfl
  exact h rfl

theorem Returns.bind {x : Outcome ε α} {f : α → Outcome ε β} (hx : Returns x)
    (hf : ∀ a, x = ok a → Returns (f a)) : Returns (x >>= f) := by
  obtain ⟨a, rfl⟩ := hx
  exact hf a rfl

theorem Returns.and {x y : Outcome ε Bool} (hx : Returns x) (hy : x = ok true → Returns y) :
    Returns (x <&&> y) := by
  obtain ⟨b, rfl⟩ := hx
  cases b with
  | true => exact hy rfl
  | false => exact returns_ok false

theorem Returns.or {x y : Outcome ε Bool} (hx : Returns x) (hy : Returns y) :
    Returns (x <||> y) := by
  obtain ⟨b, rfl⟩ := hx
  cases b with
  | true => exact returns_ok true
  | false => exact hy

theorem returns_anyM {f : α → Outcome ε Bool} {xs : List α} (h : ∀ x ∈ xs, Returns (f x)) :
    Returns (xs.anyM f) := by
  induction xs with
  | nil => exact returns_ok false
  | cons x xs ih =>
    rw [List.forall_mem_cons] at h
    rw [List.anyM]
    refine h.1.bind fun b _ => ?_
    cases b with
    | true => exact returns_ok true
    | false => exact ih h.2

theorem anyM_eq_true {f : α → Outcome ε Bool} {xs : List α} (h : ∀ x ∈ xs, Returns (f x)) :
    xs.anyM f = ok true ↔ ∃ x ∈ xs, f x = ok true := by
  refine ⟨exists_of_anyM, ?_⟩
  induction xs with
  | nil => simp
  | cons x xs ih =>
    rw [List.forall_mem_cons] at h
    obtain ⟨b, hb⟩ := h.1
    rw [List.anyM, hb, ok_bind]
    rintro ⟨y, hy, hf⟩
    cases b with
    | true => rfl
    | false =>
      rcases List.mem_cons.mp hy with rfl | hy
      · cases hb.symm.trans hf
      · exact ih h.2 ⟨y, hy, hf⟩

/-- A search over tests that never succeed panics where one of them does. -/
theorem anyM_of_fails {f : α → Outcome ε Bool} {xs : List α}
    (h : ∀ x ∈ xs, f x = ok false ∨ f x = panic) :
    (xs.anyM f = ok false ∧ ∀ x ∈ xs, f x = ok false) ∨
      (xs.anyM f = panic ∧ ∃ x ∈ xs, f x = panic) := by
  induction xs with
  | nil => exact .inl ⟨rfl, by simp⟩
  | cons x xs ih =>
    rw [List.forall_mem_cons] at h
    rw [List.anyM]
    rcases h.1 with hx | hx
    · rw [hx, ok_bind]
      refine (ih h.2).imp (fun h => ⟨h.1, List.forall_mem_cons.mpr ⟨hx, h.2⟩⟩) fun h => ?_
      obtain ⟨hany, y, hy, hp⟩ := h
      exact ⟨hany, y, by simp [hy], hp⟩
    · rw [hx, panic_bind]
      exact .inr ⟨rfl, x, by simp, hx⟩

/-- A loop of tests is safe when each test is that is reached. -/
theorem safe_allM_iff {f : α → Outcome ε Bool} {xs : List α} :
    Safe (xs.allM f) ↔ ∀ before x after, xs = before ++ x :: after →
      (∀ y ∈ before, f y = ok true) → Safe (f x) := by
  induction xs with
  | nil => simp [List.allM]
  | cons x xs ih =>
    rw [List.allM]
    constructor
    · intro h before y after hxs hbefore
      cases before with
      | nil =>
        obtain ⟨rfl, -⟩ := List.cons.inj hxs
        rintro hpanic
        rw [hpanic] at h
        exact h rfl
      | cons z before =>
        obtain ⟨rfl, hrest⟩ := List.cons.inj hxs
        rw [List.forall_mem_cons] at hbefore
        rw [hbefore.1, ok_bind] at h
        exact ih.mp h before y after hrest hbefore.2
    · intro h
      refine (h [] x xs rfl (by simp)).bind fun b hb => ?_
      cases b with
      | false => exact safe_ok false
      | true =>
        refine ih.mpr fun before y after hrest hbefore => h (x :: before) y after (by simp [hrest]) ?_
        exact List.forall_mem_cons.mpr ⟨hb, hbefore⟩

/-- A search tests the elements up to the first that has `P`; those it tests have `Q`. -/
def UpToHit (P Q : α → Prop) : List α → Prop
  | [] => True
  | x :: xs => Q x ∧ (¬P x → UpToHit P Q xs)

theorem upToHit_of_forall {P Q : α → Prop} {xs : List α} (h : ∀ x ∈ xs, Q x) : UpToHit P Q xs := by
  induction xs with
  | nil => trivial
  | cons x xs ih =>
    rw [List.forall_mem_cons] at h
    exact ⟨h.1, fun _ => ih h.2⟩

theorem exists_of_upToHit {P Q : α → Prop} {xs : List α} (h : UpToHit P Q xs)
    (hP : ∃ x ∈ xs, P x) : ∃ x ∈ xs, P x ∧ Q x := by
  induction xs with
  | nil => simp at hP
  | cons x xs ih =>
    by_cases hx : P x
    · exact ⟨x, List.mem_cons_self, hx, h.1⟩
    · obtain ⟨y, hy, hPy⟩ := hP
      rcases List.mem_cons.mp hy with rfl | hy
      · exact absurd hPy hx
      · obtain ⟨z, hz, hPQ⟩ := ih (h.2 hx) ⟨y, hy, hPy⟩
        exact ⟨z, List.mem_cons_of_mem _ hz, hPQ⟩

theorem only_anyM {f : α → Outcome ε Bool} {P : α → Prop} {xs : List α}
    (h : ∀ x ∈ xs, Only (f x) fun found => found = true ↔ P x) :
    Only (xs.anyM f) fun found => found = true ↔ ∃ x ∈ xs, P x := by
  induction xs with
  | nil => exact only_ok (by simp)
  | cons x xs ih =>
    rw [List.forall_mem_cons] at h
    rw [List.anyM]
    refine h.1.bind fun found _ hfound => ?_
    rw [List.exists_mem_cons_iff]
    cases found with
    | true => exact only_ok ⟨fun _ => .inl (hfound.mp rfl), fun _ => rfl⟩
    | false =>
      refine (ih h.2).mono fun b hb => hb.trans (or_iff_right ?_).symm
      exact fun hp => nomatch hfound.mpr hp

/-- A search returns when every test it comes to does. -/
theorem returns_anyM_iff {f : α → Outcome ε Bool} {P Q : α → Prop} {xs : List α}
    (hP : ∀ x ∈ xs, Only (f x) fun found => found = true ↔ P x)
    (hQ : ∀ x ∈ xs, Returns (f x) ↔ Q x) : Returns (xs.anyM f) ↔ UpToHit P Q xs := by
  induction xs with
  | nil => exact iff_of_true (returns_ok false) trivial
  | cons x xs ih =>
    rw [List.forall_mem_cons] at hP hQ
    have hrest := ih hP.2 hQ.2
    rw [List.anyM, UpToHit, ← hQ.1, ← hrest]
    constructor
    · rintro ⟨b, hb⟩
      obtain ⟨found, hfound, hb⟩ := bind_eq_ok.mp hb
      refine ⟨⟨found, hfound⟩, fun hnot => ?_⟩
      cases found with
      | true => exact absurd ((hP.1 true hfound).mp rfl) hnot
      | false => exact ⟨b, hb⟩
    · rintro ⟨⟨found, hfound⟩, h⟩
      rw [hfound, ok_bind]
      cases found with
      | true => exact returns_ok true
      | false => exact h fun hp => nomatch (hP.1 false hfound).mpr hp

theorem Only.and {x y : Outcome ε Bool} {P Q : Prop}
    (hx : Only x fun found => found = true ↔ P) (hy : Only y fun found => found = true ↔ Q) :
    Only (x <&&> y) fun found => found = true ↔ P ∧ Q := by
  refine hx.bind fun found _ hp => ?_
  cases found with
  | false =>
    intro b hb
    obtain rfl := Outcome.ok.inj hb
    exact ⟨fun h => (nomatch h), fun h => hp.mpr h.1⟩
  | true => exact hy.mono fun b hq => hq.trans (and_iff_right (hp.mp rfl)).symm

/-- The second test is only made when the first succeeds. -/
theorem returns_and_iff {x y : Outcome ε Bool} {P : Prop}
    (hx : Only x fun found => found = true ↔ P) :
    Returns (x <&&> y) ↔ Returns x ∧ (P → Returns y) := by
  constructor
  · rintro ⟨b, hb⟩
    obtain ⟨found, hfound, hb⟩ := bind_eq_ok.mp hb
    refine ⟨⟨found, hfound⟩, fun hp => ?_⟩
    obtain rfl := (hx found hfound).mpr hp
    exact ⟨b, hb⟩
  · rintro ⟨⟨found, hfound⟩, hy⟩
    cases found with
    | false => exact ⟨false, by rw [hfound]; rfl⟩
    | true =>
      obtain ⟨b, hb⟩ := hy ((hx true hfound).mp rfl)
      exact ⟨b, by rw [hfound, hb]; rfl⟩

theorem Returns.safe {x : Outcome ε α} (h : Returns x) : Safe x := by
  obtain ⟨a, rfl⟩ := h
  exact safe_ok a

/-! ## Searches that carry a state -/

/-- `xs.all(|x| f(&mut st, x))`. -/
def allWith (f : σ → α → Outcome ε (Bool × σ)) : List α → σ → Outcome ε (Bool × σ)
  | [], st => return (true, st)
  | x :: xs, st => do
    let (found, st) ← f st x
    if found then allWith f xs st else return (false, st)

/-- `for x in xs { if f(&mut st, x) { return true } }`, and then `false`. -/
def anyWith (f : σ → α → Outcome ε (Bool × σ)) : List α → σ → Outcome ε (Bool × σ)
  | [], st => return (false, st)
  | x :: xs, st => do
    let (found, st) ← f st x
    if found then return (true, st) else anyWith f xs st

theorem allWith_answers {f : σ → α → Outcome ε (Bool × σ)} {I : σ → Prop} {P : α → Prop}
    {xs : List α} {st : σ} (hst : I st)
    (h : ∀ x ∈ xs, ∀ st, I st → Answers (f st x) fun r => I r.2 ∧ (r.1 = true → P x)) :
    Answers (allWith f xs st) fun r => I r.2 ∧ (r.1 = true → ∀ x ∈ xs, P x) := by
  induction xs generalizing st with
  | nil => exact answers_ok ⟨hst, fun _ x hx => nomatch hx⟩
  | cons x xs ih =>
    rw [List.forall_mem_cons] at h
    refine (h.1 st hst).bind fun r hr => ?_
    obtain ⟨found, st'⟩ := r
    obtain ⟨hst', hx⟩ := hr
    cases found with
    | false => exact answers_ok ⟨hst', fun h => nomatch h⟩
    | true =>
      refine (ih hst' h.2).mono fun r hr => ⟨hr.1, fun hrt => ?_⟩
      exact List.forall_mem_cons.mpr ⟨hx rfl, hr.2 hrt⟩

theorem anyWith_answers {f : σ → α → Outcome ε (Bool × σ)} {I : σ → Prop} {P : α → Prop}
    {xs : List α} {st : σ} (hst : I st)
    (h : ∀ x ∈ xs, ∀ st, I st → Answers (f st x) fun r => I r.2 ∧ (r.1 = true → P x)) :
    Answers (anyWith f xs st) fun r => I r.2 ∧ (r.1 = true → ∃ x ∈ xs, P x) := by
  induction xs generalizing st with
  | nil => exact answers_ok ⟨hst, fun h => nomatch h⟩
  | cons x xs ih =>
    rw [List.forall_mem_cons] at h
    refine (h.1 st hst).bind fun r hr => ?_
    obtain ⟨found, st'⟩ := r
    obtain ⟨hst', hx⟩ := hr
    cases found with
    | true => exact answers_ok ⟨hst', fun _ => ⟨x, by simp, hx rfl⟩⟩
    | false =>
      refine (ih hst' h.2).mono fun r hr => ⟨hr.1, fun hrt => ?_⟩
      obtain ⟨y, hy, hp⟩ := hr.2 hrt
      exact ⟨y, by simp [hy], hp⟩

/-! ## Unchecked machine arithmetic -/

/-- `a + b` on `bits`-wide unsigned words. -/
def addU (bits a b : Nat) : Outcome ε Nat := if a + b < 2 ^ bits then ok (a + b) else panic

/-- `a * b` on `bits`-wide unsigned words. -/
def mulU (bits a b : Nat) : Outcome ε Nat := if a * b < 2 ^ bits then ok (a * b) else panic

/-- `a - b` on unsigned words. -/
def subU (a b : Nat) : Outcome ε Nat := if b ≤ a then ok (a - b) else panic

@[simp] theorem addU_eq_ok {bits a b c : Nat} :
    (addU bits a b : Outcome ε Nat) = ok c ↔ a + b < 2 ^ bits ∧ a + b = c := by
  by_cases h : a + b < 2 ^ bits <;> simp [addU, h]

@[simp] theorem subU_eq_ok {a b c : Nat} :
    (subU a b : Outcome ε Nat) = ok c ↔ b ≤ a ∧ a - b = c := by
  by_cases h : b ≤ a <;> simp [subU, h]

theorem addU_of_lt {bits a b : Nat} (h : a + b < 2 ^ bits) :
    (addU bits a b : Outcome ε Nat) = ok (a + b) := if_pos h

theorem mulU_of_lt {bits a b : Nat} (h : a * b < 2 ^ bits) :
    (mulU bits a b : Outcome ε Nat) = ok (a * b) := if_pos h

theorem subU_of_le {a b : Nat} (h : b ≤ a) : (subU a b : Outcome ε Nat) = ok (a - b) := if_pos h

end Outcome
end Lib
