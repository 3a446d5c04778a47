import SmtServer.Lib.Outcome

/-!
# `Grow` — computations over an append-only store

A store that is only ever appended to has one law that every function over it obeys: the
state it leaves is an extension of the state it was given. `Grow` makes that law part of the
**type** of a computation, so that it is proved once, for the primitive that appends, and
then holds of everything written with `do` on top of it — whether the computation returns,
fails or panics.

What the law buys is `Grow.wp`. A resource limit is a predicate `D` that no extension can
regain once lost (`Limit`: "the table has at most `2 ^ 32` entries"). A specification may
assume the limit of the *final* state; because the state only grows, the assumption reaches
every intermediate one, and `wp_bind` hands it to each part.
-/

namespace Lib

/-- A computation over the store `σ` that can only extend it. -/
structure Grow (σ : Type) [Preorder σ] (ε : Type) (α : Type) where
  run : σ → Outcome ε α × σ
  grows : ∀ s, s ≤ (run s).2

namespace Grow

variable {σ : Type} [Preorder σ] {ε α β γ : Type}

@[ext] theorem ext {m n : Grow σ ε α} (h : ∀ s, m.run s = n.run s) : m = n := by
  cases m
  cases n
  congr
  exact funext h

protected def pure (a : α) : Grow σ ε α := ⟨fun s => (.ok a, s), fun s => le_refl s⟩

protected def bind (m : Grow σ ε α) (f : α → Grow σ ε β) : Grow σ ε β where
  run s :=
    match m.run s with
    | (.ok a, s') => (f a).run s'
    | (.err e, s') => (.err e, s')
    | (.panic, s') => (.panic, s')
  grows s := by
    have hm := m.grows s
    split
    · rename_i a s' h
      rw [h] at hm
      exact le_trans hm ((f a).grows s')
    · rename_i e s' h
      rw [h] at hm
      exact hm
    · rename_i s' h
      rw [h] at hm
      exact hm

instance : Monad (Grow σ ε) where
  pure := Grow.pure
  bind := Grow.bind

/-- Look at the store without changing it. -/
def read (f : σ → Outcome ε α) : Grow σ ε α := ⟨fun s => (f s, s), fun s => le_refl s⟩

/-- Fail with an error value. -/
def fail (e : ε) : Grow σ ε α := ⟨fun s => (.err e, s), fun s => le_refl s⟩

/-- A computation that does not look at the store. -/
def lift (x : Outcome ε α) : Grow σ ε α := read fun _ => x

/-- Extend the store. -/
def modify (f : σ → σ) (h : ∀ s, s ≤ f s) : Grow σ ε Unit := ⟨fun s => (.ok (), f s), h⟩

/-- `map_err`. -/
def mapErr {ε' : Type} (f : ε → ε') (m : Grow σ ε α) : Grow σ ε' α where
  run s :=
    match m.run s with
    | (.ok a, s') => (.ok a, s')
    | (.err e, s') => (.err (f e), s')
    | (.panic, s') => (.panic, s')
  grows s := by
    have hm := m.grows s
    split <;> simp_all

@[simp] theorem run_pure (a : α) (s : σ) : (pure a : Grow σ ε α).run s = (.ok a, s) := rfl

@[simp] theorem run_read (f : σ → Outcome ε α) (s : σ) : (read f).run s = (f s, s) := rfl

@[simp] theorem run_fail (e : ε) (s : σ) : (fail e : Grow σ ε α).run s = (.err e, s) := rfl

theorem run_bind (m : Grow σ ε α) (f : α → Grow σ ε β) (s : σ) :
    (m >>= f).run s = match m.run s with
      | (.ok a, s') => (f a).run s'
      | (.err e, s') => (.err e, s')
      | (.panic, s') => (.panic, s') := rfl

theorem run_bind_ok {m : Grow σ ε α} {f : α → Grow σ ε β} {s s' : σ} {a : α}
    (h : m.run s = (.ok a, s')) : (m >>= f).run s = (f a).run s' := by
  rw [run_bind, h]

theorem run_bind_err {m : Grow σ ε α} {f : α → Grow σ ε β} {s s' : σ} {e : ε}
    (h : m.run s = (.err e, s')) : (m >>= f).run s = (.err e, s') := by
  rw [run_bind, h]

instance : LawfulMonad (Grow σ ε) :=
  LawfulMonad.mk' _
    (fun m => Grow.ext fun s => by
      show (m >>= fun a => pure a).run s = m.run s
      rw [run_bind]
      split <;> simp_all)
    (fun _ _ => rfl)
    (fun m f g => Grow.ext fun s => by
      rw [run_bind, run_bind, run_bind]
      split
      · rename_i a s' h
        split at h
        · rename_i b s'' hm
          rw [run_bind, h]
        · simp at h
        · simp at h
      · rename_i e s' h
        split at h
        · rename_i b s'' hm
          rw [run_bind, h]
        · simp_all
        · simp at h
      · rename_i s' h
        split at h
        · rename_i b s'' hm
          rw [run_bind, h]
        · simp at h
        · simp_all)

/-! ## Weakest preconditions under a limit -/

/-- A property that a larger store can only lose. -/
def Limit (D : σ → Prop) : Prop := ∀ {s s' : σ}, s ≤ s' → D s' → D s

variable {D : σ → Prop} {E : ε → σ → Prop}

/-- If the final store is within the limit, the run does not panic, an error it returns
satisfies `E`, and a value it returns satisfies `Q`. -/
def wp (D : σ → Prop) (E : ε → σ → Prop) (m : Grow σ ε α) (s : σ) (Q : α → σ → Prop) : Prop :=
  D (m.run s).2 →
    match m.run s with
    | (.ok a, s') => Q a s'
    | (.err e, s') => E e s'
    | (.panic, _) => False

theorem wp_of_run {m : Grow σ ε α} {s s' : σ} {a : α} {Q : α → σ → Prop}
    (h : m.run s = (.ok a, s')) (hq : D s' → Q a s') : wp D E m s Q := by
  intro hd
  rw [h] at hd ⊢
  exact hq hd

theorem wp_pure {a : α} {s : σ} {Q : α → σ → Prop} (h : D s → Q a s) :
    wp D E (pure a : Grow σ ε α) s Q :=
  wp_of_run rfl h

theorem wp_read {f : σ → Outcome ε α} {a : α} {s : σ} {Q : α → σ → Prop} (hf : f s = .ok a)
    (h : D s → Q a s) : wp D E (read f) s Q :=
  wp_of_run (by rw [run_read, hf]) h

theorem wp_fail {e : ε} {s : σ} {Q : α → σ → Prop} (h : E e s) :
    wp D E (fail e : Grow σ ε α) s Q := by
  intro _
  exact h

/-- Sequencing: the limit of the final store is the limit of the intermediate one. -/
theorem wp_bind (hD : Limit D) {m : Grow σ ε α} {f : α → Grow σ ε β} {s : σ}
    {Q : β → σ → Prop}
    (h : wp D E m s fun a s' => s ≤ s' → wp D E (f a) s' Q) : wp D E (m >>= f) s Q := by
  intro hd
  have hm := m.grows s
  unfold wp at h
  rw [run_bind] at hd ⊢
  cases hr : m.run s with
  | mk o s' =>
    rw [hr] at hd h hm
    cases o with
    | ok a => exact h (hD ((f a).grows s') hd) hm hd
    | err e => exact h hd
    | panic => exact h hd

/-- A part that reads and returns disappears from the goal. -/
theorem wp_bind_run {m : Grow σ ε α} {f : α → Grow σ ε β} {s s' : σ} {a : α}
    {Q : β → σ → Prop} (hr : m.run s = (.ok a, s')) (h : wp D E (f a) s' Q) :
    wp D E (m >>= f) s Q := by
  intro hd
  rw [run_bind_ok hr] at hd ⊢
  exact h hd

/-- Reading splits on what was read. -/
theorem wp_bind_read {f : σ → Outcome ε α} {g : α → Grow σ ε β} {s : σ} {Q : β → σ → Prop}
    (hok : ∀ a, f s = .ok a → wp D E (g a) s Q) (herr : ∀ e, f s = .err e → E e s)
    (hsafe : Outcome.Safe (f s)) : wp D E (read f >>= g) s Q := by
  cases h : f s with
  | ok a => exact wp_bind_run (by rw [run_read, h]) (hok a h)
  | err e =>
    intro _
    have hr : (read f).run s = (.err e, s) := by rw [run_read, h]
    rw [run_bind_err hr]
    exact herr e h
  | panic => exact absurd h hsafe

theorem wp_bind_modify {f : σ → σ} {h : ∀ s, s ≤ f s} {g : Unit → Grow σ ε β} {s : σ}
    {Q : β → σ → Prop} (hg : wp D E (g ()) (f s) Q) : wp D E (modify f h >>= g) s Q := by
  have hr : (modify f h : Grow σ ε Unit).run s = (.ok (), f s) := rfl
  exact wp_bind_run hr hg

theorem wp_mono {m : Grow σ ε α} {s : σ} {Q Q' : α → σ → Prop} (h : wp D E m s Q)
    (hq : ∀ a s', s ≤ s' → D s' → Q a s' → Q' a s') : wp D E m s Q' := by
  intro hd
  have hm := m.grows s
  have h' := h hd
  cases hr : m.run s with
  | mk o s' =>
    rw [hr] at h' hm hd
    cases o with
    | ok a => exact hq a s' hm hd h'
    | err e => exact h'
    | panic => exact h'

/-- Read a specification back as a fact about a run that returned. -/
theorem wp.of_ok {m : Grow σ ε α} {s s' : σ} {a : α} {Q : α → σ → Prop} (h : wp D E m s Q)
    (hr : m.run s = (.ok a, s')) (hd : D s') : Q a s' := by
  unfold wp at h
  rw [hr] at h
  exact h hd

/-! ## Runs that return -/

/-- Every value the run returns satisfies `Q`; an error or a panic is left open. -/
def Returns (m : Grow σ ε α) (s : σ) (Q : α → σ → Prop) : Prop :=
  ∀ a s', m.run s = (.ok a, s') → Q a s'

theorem returns_pure {a : α} {s : σ} {Q : α → σ → Prop} (h : Q a s) :
    Returns (pure a : Grow σ ε α) s Q := by
  intro b s' hr
  obtain ⟨rfl, rfl⟩ : a = b ∧ s = s' := by simpa using hr
  exact h

theorem returns_fail {e : ε} {s : σ} {Q : α → σ → Prop} :
    Returns (fail e : Grow σ ε α) s Q := by
  intro a s' hr
  simp at hr

theorem returns_ite {c : Prop} [Decidable c] {m n : Grow σ ε α} {s : σ} {Q : α → σ → Prop}
    (hm : c → Returns m s Q) (hn : ¬ c → Returns n s Q) : Returns (if c then m else n) s Q := by
  split
  · exact hm ‹_›
  · exact hn ‹_›

theorem returns_read {f : σ → Outcome ε α} {s : σ} {Q : α → σ → Prop}
    (h : ∀ a, f s = .ok a → Q a s) : Returns (read f) s Q := by
  intro a s' hr
  obtain ⟨ha, rfl⟩ : f s = .ok a ∧ s = s' := by simpa using hr
  exact h a ha

/-- What was returned came from a first part that returned. -/
theorem Returns.bind {m : Grow σ ε α} {f : α → Grow σ ε β} {s : σ} {P : α → σ → Prop}
    {Q : β → σ → Prop} (hm : Returns m s P)
    (hf : ∀ a s', s ≤ s' → P a s' → Returns (f a) s' Q) : Returns (m >>= f) s Q := by
  intro b s'' hr
  rw [run_bind] at hr
  have hle := m.grows s
  cases hms : m.run s with
  | mk o s' =>
    rw [hms] at hr hle
    cases o with
    | ok a => exact hf a s' hle (hm a s' hms) b s'' hr
    | err e => simp at hr
    | panic => simp at hr

theorem Returns.mono {m : Grow σ ε α} {s : σ} {P Q : α → σ → Prop} (hm : Returns m s P)
    (h : ∀ a s', s ≤ s' → P a s' → Q a s') : Returns m s Q := by
  intro a s' hr
  have hle := m.grows s
  rw [hr] at hle
  exact h a s' hle (hm a s' hr)

theorem Returns.mapErr {ε' : Type} {g : ε → ε'} {m : Grow σ ε α} {s : σ} {Q : α → σ → Prop}
    (hm : Returns m s Q) : Returns (mapErr g m) s Q := by
  intro a s' hr
  refine hm a s' ?_
  simp only [Grow.mapErr] at hr
  split at hr <;> simp_all

/-! ## Specifications with an invariant -/

/-- From a store with the invariant `I`, and as long as the final store is within the limit: no
panic, the invariant on **every** exit, no errors but those of `F`, and a value that satisfies
`Q`. -/
def Spec (D I : σ → Prop) (F : ε → σ → Prop) (m : Grow σ ε α) (s : σ) (Q : α → σ → Prop) : Prop :=
  I s → wp D (fun e s' => F e s' ∧ I s') m s fun a s' => I s' ∧ Q a s'

variable {I : σ → Prop} {F : ε → σ → Prop} {m : Grow σ ε α} {s : σ}

theorem Spec.bind (hD : Limit D) {f : α → Grow σ ε β} {P : α → σ → Prop} {Q : β → σ → Prop}
    (hm : Spec D I F m s P) (hf : ∀ a s', s ≤ s' → P a s' → Spec D I F (f a) s' Q) :
    Spec D I F (m >>= f) s Q := by
  intro hs
  refine wp_bind hD (wp_mono (hm hs) ?_)
  intro a s' hle _ hp _
  exact hf a s' hle hp.2 hp.1

theorem spec_pure {a : α} {Q : α → σ → Prop} (h : Q a s) :
    Spec D I F (pure a : Grow σ ε α) s Q := by
  intro hs
  exact wp_pure fun _ => ⟨hs, h⟩

/-- Reading or checking: the store stays, and what was read is known. -/
theorem spec_read {f : σ → Outcome ε α} {g : α → Grow σ ε β} {Q : β → σ → Prop}
    (hsafe : Outcome.Safe (f s)) (herr : ∀ e, f s = .err e → F e s)
    (hg : ∀ a, f s = .ok a → Spec D I F (g a) s Q) : Spec D I F (read f >>= g) s Q := by
  intro hs
  exact wp_bind_read (fun a ha => hg a ha hs) (fun e he => ⟨herr e he, hs⟩) hsafe

theorem Spec.mono {P Q : α → σ → Prop} (h : Spec D I F m s P)
    (hpq : ∀ a s', s ≤ s' → I s' → P a s' → Q a s') : Spec D I F m s Q := by
  intro hs
  refine wp_mono (h hs) ?_
  intro a s' hle _ hp
  exact ⟨hp.1, hpq a s' hle hp.1 hp.2⟩

/-- Together with what was returned comes the limit of the store it was returned in. -/
theorem Spec.mono_limit {P Q : α → σ → Prop} (h : Spec D I F m s P)
    (hpq : ∀ a s', s ≤ s' → D s' → I s' → P a s' → Q a s') : Spec D I F m s Q := by
  intro hs
  refine wp_mono (h hs) ?_
  intro a s' hle hd hp
  exact ⟨hp.1, hpq a s' hle hd hp.1 hp.2⟩

/-- A run has one result: what several specifications say of it they say together. -/
theorem spec_forall {ι : Type} [Nonempty ι] {Q : ι → α → σ → Prop}
    (h : ∀ i, Spec D I F m s (Q i)) : Spec D I F m s fun a s' => ∀ i, Q i a s' := by
  intro hs hd
  have hall := fun i => h i hs hd
  inhabit ι
  cases hr : m.run s with
  | mk o s' =>
    rw [hr] at hall
    cases o with
    | ok a => exact ⟨(hall default).1, fun i => (hall i).2⟩
    | err e => exact hall default
    | panic => exact hall default

/-- A loop over a range: `J` counts the rounds. -/
theorem spec_foldlM_range (hD : Limit D) {f : β → Nat → Grow σ ε β} {J : Nat → β → σ → Prop}
    {n : Nat} {b : β} (hstep : ∀ i < n, ∀ b s, J i b s → Spec D I F (f b i) s (J (i + 1)))
    (h : J 0 b s) : Spec D I F ((List.range n).foldlM f b) s (J n) := by
  induction n with
  | zero => exact spec_pure h
  | succ n ih =>
    rw [List.range_succ, List.foldlM_append]
    refine Spec.bind hD (ih fun i hi => hstep i (Nat.lt_succ_of_lt hi)) fun b' s' _ hb' => ?_
    rw [List.foldlM_cons]
    refine Spec.bind hD (hstep n (Nat.lt_succ_self n) b' s' hb') fun b'' s'' _ hb'' => ?_
    exact spec_pure hb''

/-- A loop over the rows of a list: what each round keeps, the loop does. -/
theorem spec_foldlM_zipIdx (hD : Limit D) {f : β → α × Nat → Grow σ ε β}
    {J : Nat → β → σ → Prop} {xs : List α} {b : β} {k : Nat}
    (hstep : ∀ i x b s, xs[i]? = some x → J (k + i) b s →
      Spec D I F (f b (x, k + i)) s fun b' s' => J (k + i + 1) b' s') (h : J k b s) :
    Spec D I F ((xs.zipIdx k).foldlM f b) s fun b' s' => J (k + xs.length) b' s' := by
  induction xs generalizing b s k with
  | nil => exact spec_pure h
  | cons x xs ih =>
    rw [List.zipIdx_cons, List.foldlM_cons]
    refine Spec.bind hD (hstep 0 x b s rfl h) fun b' s' _ hb' => ?_
    rw [List.length_cons, Nat.add_comm xs.length, ← Nat.add_assoc]
    refine ih (fun i y b s hy hj => ?_) hb'
    have hrow : k + 1 + i = k + (i + 1) := by omega
    rw [hrow] at hj ⊢
    exact hstep (i + 1) y b s hy hj

end Grow
end Lib
