import Mathlib

/-!
# Rudurru.Lib.Prog

Programs that change a state and may fail, `ExceptT ε (StateM σ)`, where a failure keeps the
state reached so far.

Some failures (`crash`) mean that the program never returned. `Spec crash x s Q` is partial
correctness in that sense: if `x` returns from `s` at all, with a value or with an ordinary
error, then `Q` holds of its result and of the state it reached. The rules below compute it
along the structure of a program.

Three kinds of rules stand side by side. `Spec` relates the state before to the result and the state
after; it has a rule for each constructor of programs and one for consequence. `Avoids` says that an
error is never the outcome, whatever the state. `Respects` runs one program on two related states
and asks that the outcome be the same and the relation kept. A proof about a concrete operation
applies the rules along its text and is left with the conditions on its basic steps.
-/

namespace Prog

variable {σ ε α β : Type}

theorem ok_of_toOption {x : Except ε α} {a : α} (h : x.toOption = some a) : x = .ok a := by
  cases x with
  | error e => cases h
  | ok b =>
      cases h
      rfl

/-- A computation that returns has returned at every step. -/
theorem bind_eq_ok {x : Except ε α} {f : α → Except ε β} {b : β} :
    (x >>= f) = .ok b ↔ ∃ a, x = .ok a ∧ f a = .ok b := by
  cases x with
  | error e =>
      constructor
      · intro h
        cases h
      · rintro ⟨a, h, -⟩
        cases h
  | ok a =>
      constructor
      · intro h
        exact ⟨a, rfl, h⟩
      · rintro ⟨a', h, hf⟩
        cases h
        exact hf

/-- One that fails has failed at one of its steps, after returning at the steps before. -/
theorem bind_eq_error {x : Except ε α} {f : α → Except ε β} {e : ε} :
    (x >>= f) = .error e ↔ x = .error e ∨ ∃ a, x = .ok a ∧ f a = .error e := by
  cases x with
  | error e' =>
      constructor
      · intro h
        cases h
        exact .inl rfl
      · intro h
        rcases h with h | ⟨a, h, -⟩
        · cases h
          rfl
        · cases h
  | ok a =>
      constructor
      · intro h
        exact .inr ⟨a, rfl, h⟩
      · intro h
        rcases h with h | ⟨a', h, hf⟩
        · cases h
        · cases h
          exact hf

/-- What comes after cannot fail with the error. -/
theorem bind_eq_error_iff {x : Except ε α} {f : α → Except ε β} {e : ε}
    (hf : ∀ a, f a ≠ .error e) : (x >>= f) = .error e ↔ x = .error e := by
  rw [bind_eq_error]
  constructor
  · intro h
    rcases h with h | ⟨a, -, h⟩
    · exact h
    · exact absurd h (hf a)
  · exact .inl

theorem bind_ne_error {x : Except ε α} {f : α → Except ε β} {e : ε} (hx : x ≠ .error e)
    (hf : ∀ a, f a ≠ .error e) : (x >>= f) ≠ .error e := by
  intro h
  exact hx ((bind_eq_error_iff hf).mp h)

/-- Did it fail with this error? -/
def failsWith [DecidableEq ε] (e : ε) : Except ε α → Bool
  | .error e' => e' = e
  | .ok _ => false

theorem eq_error_of_failsWith [DecidableEq ε] {x : Except ε α} {e : ε}
    (h : failsWith e x = true) : x = .error e := by
  cases x with
  | error e' => rw [of_decide_eq_true h]
  | ok a => cases h

/-- Run from a state: the result and the state reached. -/
def exec (x : ExceptT ε (StateM σ) α) (s : σ) : Except ε α × σ :=
  StateT.run (ExceptT.run x) s

@[simp] theorem exec_pure (a : α) (s : σ) :
    exec (pure a : ExceptT ε (StateM σ) α) s = (.ok a, s) := rfl

@[simp] theorem exec_throw (e : ε) (s : σ) :
    exec (throw e : ExceptT ε (StateM σ) α) s = (.error e, s) := rfl

@[simp] theorem exec_get (s : σ) : exec (get : ExceptT ε (StateM σ) σ) s = (.ok s, s) := rfl

@[simp] theorem exec_set (s s' : σ) :
    exec (set s' : ExceptT ε (StateM σ) PUnit) s = (.ok ⟨⟩, s') := rfl

@[simp] theorem exec_modifyGet (f : σ → α × σ) (s : σ) :
    exec (modifyGet f : ExceptT ε (StateM σ) α) s = (.ok (f s).1, (f s).2) := rfl

@[simp] theorem exec_modify (f : σ → σ) (s : σ) :
    exec (modify f : ExceptT ε (StateM σ) PUnit) s = (.ok ⟨⟩, f s) := rfl

/-- What follows runs on the state that was reached, and not at all after an error. -/
theorem exec_bind (x : ExceptT ε (StateM σ) α) (f : α → ExceptT ε (StateM σ) β) (s : σ) :
    exec (x >>= f) s =
      match exec x s with
      | (.ok a, s') => exec (f a) s'
      | (.error e, s') => (.error e, s') := by
  simp only [exec, ExceptT.run_bind, StateT.run_bind]
  rcases h : StateT.run (ExceptT.run x) s with ⟨r, s'⟩
  cases r <;> rfl

/-- Sequencing fails where one of the parts does. -/
theorem exec_bind_eq_error {x : ExceptT ε (StateM σ) α} {f : α → ExceptT ε (StateM σ) β} {s : σ}
    {e : ε} : (exec (x >>= f) s).1 = .error e ↔
      (exec x s).1 = .error e ∨
        ∃ a s', exec x s = (.ok a, s') ∧ (exec (f a) s').1 = .error e := by
  rw [exec_bind]
  rcases hx : exec x s with ⟨r, s'⟩
  cases r with
  | ok a =>
      constructor
      · intro h
        exact .inr ⟨a, s', rfl, h⟩
      · intro h
        rcases h with h | ⟨a', s'', heq, h⟩
        · cases h
        · cases heq
          exact h
  | error e' =>
      constructor
      · intro h
        cases h
        exact .inl rfl
      · intro h
        rcases h with h | ⟨a', s'', heq, h⟩
        · cases h
          rfl
        · cases heq

/-- Sequencing succeeds where both parts do. -/
theorem exec_bind_eq_ok {x : ExceptT ε (StateM σ) α} {f : α → ExceptT ε (StateM σ) β} {s s' : σ}
    {b : β} : exec (x >>= f) s = (.ok b, s') ↔
      ∃ a s₁, exec x s = (.ok a, s₁) ∧ exec (f a) s₁ = (.ok b, s') := by
  rw [exec_bind]
  rcases hx : exec x s with ⟨r, s₁⟩
  cases r with
  | ok a =>
      constructor
      · intro h
        exact ⟨a, s₁, rfl, h⟩
      · rintro ⟨a', s₁', heq, h⟩
        cases heq
        exact h
  | error e =>
      constructor
      · intro h
        cases h
      · rintro ⟨a', s₁', heq, -⟩
        cases heq

/-! ### Errors a program cannot end with -/

/-- From no state does `x` fail with `e`. -/
def Avoids (e : ε) (x : ExceptT ε (StateM σ) α) : Prop := ∀ s, (exec x s).1 ≠ .error e

theorem avoids_pure (e : ε) (a : α) : Avoids e (pure a : ExceptT ε (StateM σ) α) := by
  intro s h
  cases h

theorem avoids_throw {e e' : ε} (h : e' ≠ e) : Avoids e (throw e' : ExceptT ε (StateM σ) α) := by
  intro s h'
  cases h'
  exact h rfl

theorem avoids_throw_bind {e e' : ε} (h : e' ≠ e) (f : α → ExceptT ε (StateM σ) β) :
    Avoids e (throw e' >>= f) := by
  intro s h'
  cases h'
  exact h rfl

theorem avoids_get (e : ε) : Avoids e (get : ExceptT ε (StateM σ) σ) := by
  intro s h
  cases h

theorem avoids_set (e : ε) (s : σ) : Avoids e (set s : ExceptT ε (StateM σ) PUnit) := by
  intro s' h
  cases h

theorem avoids_modifyGet (e : ε) (f : σ → α × σ) :
    Avoids e (modifyGet f : ExceptT ε (StateM σ) α) := by
  intro s h
  cases h

theorem avoids_modify (e : ε) (f : σ → σ) :
    Avoids e (modify f : ExceptT ε (StateM σ) PUnit) := by
  intro s h
  cases h

/-- A chain avoids an error if its links do. -/
theorem Avoids.bind {x : ExceptT ε (StateM σ) α} {f : α → ExceptT ε (StateM σ) β} {e : ε}
    (hx : Avoids e x) (hf : ∀ a, Avoids e (f a)) : Avoids e (x >>= f) := by
  intro s h
  rcases exec_bind_eq_error.mp h with h | ⟨a, s', -, h⟩
  · exact hx s h
  · exact hf a s' h

/-- What comes after cannot fail with the error. -/
theorem exec_bind_eq_error_iff {x : ExceptT ε (StateM σ) α} {f : α → ExceptT ε (StateM σ) β}
    {e : ε} (hf : ∀ a, Avoids e (f a)) (s : σ) :
    (exec (x >>= f) s).1 = .error e ↔ (exec x s).1 = .error e := by
  rw [exec_bind_eq_error]
  constructor
  · intro h
    rcases h with h | ⟨a, s', -, h⟩
    · exact h
    · exact absurd h (hf a s')
  · exact .inl

/-- A handler starts from the state that the failure has left. -/
theorem exec_tryCatch (x : ExceptT ε (StateM σ) α) (handler : ε → ExceptT ε (StateM σ) α) (s : σ) :
    exec (tryCatch x handler) s =
      match exec x s with
      | (.ok a, s') => (.ok a, s')
      | (.error e, s') => exec (handler e) s' := by
  simp only [exec, tryCatch, tryCatchThe, MonadExceptOf.tryCatch, ExceptT.tryCatch, ExceptT.run_mk]
  refine (StateT.run_bind (m := Id) (ExceptT.run x) _ s).trans ?_
  rcases StateT.run (ExceptT.run x) s with ⟨r, s'⟩
  cases r <;> rfl

/-- A handler may raise the error only if it is given it. -/
theorem Avoids.tryCatch {x : ExceptT ε (StateM σ) α} {handler : ε → ExceptT ε (StateM σ) α} {e : ε}
    (hx : Avoids e x) (hh : ∀ e', e' ≠ e → Avoids e (handler e')) :
    Avoids e (tryCatch x handler) := by
  intro s
  have hs := hx s
  rw [exec_tryCatch]
  rcases hr : exec x s with ⟨r, s'⟩
  rw [hr] at hs
  cases r with
  | ok a =>
      intro h
      cases h
  | error e' =>
      refine hh e' ?_ s'
      rintro rfl
      exact hs rfl

/-- Partial correctness from a state: whatever `x` returns satisfies `Q`. -/
def Spec (crash : ε → Prop) (x : ExceptT ε (StateM σ) α) (s : σ)
    (Q : Except ε α → σ → Prop) : Prop :=
  (∀ e, (exec x s).1 = .error e → ¬ crash e) → Q (exec x s).1 (exec x s).2

variable {crash : ε → Prop} {x : ExceptT ε (StateM σ) α} {s : σ} {Q : Except ε α → σ → Prop}

/-- The rule of consequence. -/
theorem Spec.mono {Q' : Except ε α → σ → Prop} (h : Spec crash x s Q)
    (hQ : ∀ r s', Q r s' → Q' r s') : Spec crash x s Q' :=
  fun hok => hQ _ _ (h hok)

/-- Two things that hold of what a program returns. -/
theorem Spec.and {Q' : Except ε α → σ → Prop} (h : Spec crash x s Q) (h' : Spec crash x s Q') :
    Spec crash x s fun r s' => Q r s' ∧ Q' r s' := fun hok => ⟨h hok, h' hok⟩

/-- What holds of a program that has succeeded. -/
theorem Spec.of_ok (h : Spec crash x s Q) {a : α} {s' : σ} (hexec : exec x s = (.ok a, s')) :
    Q (.ok a) s' := by
  have hreturn := h (by rw [hexec]; simp)
  rwa [hexec] at hreturn

theorem spec_pure {a : α} (h : Q (.ok a) s) : Spec crash (pure a) s Q := fun _ => h

/-- An error is an outcome like a value, unless it is a crash, of which nothing is claimed. -/
theorem spec_throw {e : ε} (h : ¬ crash e → Q (.error e) s) :
    Spec crash (throw e : ExceptT ε (StateM σ) α) s Q :=
  fun hok => h (hok e rfl)

/-- Sequencing: an error of the first part is the error of the whole. -/
theorem spec_bind {f : α → ExceptT ε (StateM σ) β} {Q : Except ε β → σ → Prop}
    (h : Spec crash x s fun r s' =>
      match r with
      | .ok a => Spec crash (f a) s' Q
      | .error e => Q (.error e) s') :
    Spec crash (x >>= f) s Q := by
  intro hok
  rw [exec_bind] at hok ⊢
  unfold Spec at h
  rcases hx : exec x s with ⟨r, s'⟩
  rw [hx] at h hok
  cases r with
  | ok a => exact h (by simp) hok
  | error e => exact h fun e' he => hok e' (by cases he; rfl)

/-- Sequencing through a postcondition of the first part. -/
theorem Spec.bind {f : α → ExceptT ε (StateM σ) β} {Q' : Except ε β → σ → Prop}
    (h : Spec crash x s Q) (herr : ∀ e s', Q (.error e) s' → Q' (.error e) s')
    (hf : ∀ a s', Q (.ok a) s' → Spec crash (f a) s' Q') : Spec crash (x >>= f) s Q' := by
  refine spec_bind (h.mono ?_)
  intro r s' hr
  cases r with
  | ok a => exact hf a s' hr
  | error e => exact herr e s' hr

/-- Sequencing after a first part whose run is known. -/
theorem spec_bind_ok {f : α → ExceptT ε (StateM σ) β} {Q : Except ε β → σ → Prop} {a : α} {s' : σ}
    (hx : exec x s = (.ok a, s')) (h : Spec crash (f a) s' Q) : Spec crash (x >>= f) s Q := by
  refine spec_bind fun _ => ?_
  rw [hx]
  exact h

/-- Nothing is claimed of a program whose first part crashes. -/
theorem spec_bind_crash {f : α → ExceptT ε (StateM σ) β} {Q : Except ε β → σ → Prop} {e : ε}
    (hx : (exec x s).1 = .error e) (he : crash e) : Spec crash (x >>= f) s Q := by
  intro hok
  rw [exec_bind] at hok
  rcases hr : exec x s with ⟨r, s'⟩
  rw [hr] at hx hok
  obtain rfl : r = .error e := hx
  exact absurd he (hok e rfl)

/-- What follows a `throw` does not run. -/
theorem spec_throw_bind {f : α → ExceptT ε (StateM σ) β} {Q : Except ε β → σ → Prop} {e : ε}
    (h : Q (.error e) s) : Spec crash (throw e >>= f) s Q :=
  spec_bind fun _ => h

/-- Sequencing when only the last part matters. -/
theorem spec_bind_forall {f : α → ExceptT ε (StateM σ) β} {Q : Except ε β → σ → Prop}
    (herr : ∀ e s', Q (.error e) s') (hf : ∀ a s', Spec crash (f a) s' Q) :
    Spec crash (x >>= f) s Q := by
  refine spec_bind fun _ => ?_
  cases (exec x s).1 with
  | ok a => exact hf a _
  | error e => exact herr e _

/-- Recovering from an error, with a handler that passes crashes on. -/
theorem spec_tryCatch {handler : ε → ExceptT ε (StateM σ) α}
    (hcrash : ∀ e s', crash e → ∃ e', (exec (handler e) s').1 = .error e' ∧ crash e')
    (h : Spec crash x s fun r s' =>
      match r with
      | .ok a => Q (.ok a) s'
      | .error e => Spec crash (handler e) s' Q) :
    Spec crash (tryCatch x handler) s Q := by
  intro hok
  rw [exec_tryCatch] at hok ⊢
  unfold Spec at h
  rcases hx : exec x s with ⟨r, s'⟩
  rw [hx] at h hok
  cases r with
  | ok a => exact h (by simp)
  | error e =>
      refine h ?_ hok
      intro e' he' hce
      obtain rfl : e = e' := by simpa using he'
      obtain ⟨e'', hexec, hce'⟩ := hcrash e s' hce
      exact hok e'' hexec hce'

/-- Reading the state hands it on to the rest of the program. -/
theorem spec_get_bind {f : σ → ExceptT ε (StateM σ) β} {Q : Except ε β → σ → Prop}
    (h : Spec crash (f s) s Q) : Spec crash (get >>= f) s Q :=
  spec_bind fun _ => h

theorem spec_modifyGet_bind {g : σ → α × σ} {f : α → ExceptT ε (StateM σ) β}
    {Q : Except ε β → σ → Prop} (h : Spec crash (f (g s).1) (g s).2 Q) :
    Spec crash (modifyGet g >>= f) s Q :=
  spec_bind fun _ => h

theorem spec_modify_bind {g : σ → σ} {f : PUnit → ExceptT ε (StateM σ) β}
    {Q : Except ε β → σ → Prop} (h : Spec crash (f ⟨⟩) (g s) Q) :
    Spec crash (modify g >>= f) s Q :=
  spec_bind fun _ => h

/-! ### Relations between the states before and after -/

/-- From every state, `x` ends in a related one, whatever it returns. -/
def Within (R : σ → σ → Prop) (x : ExceptT ε (StateM σ) α) : Prop := ∀ s, R s (exec x s).2

variable {R : σ → σ → Prop}

/-- A weaker relation is kept too. -/
theorem Within.mono {R' : σ → σ → Prop} (h : Within R x) (hR : ∀ s s', R s s' → R' s s') :
    Within R' x := fun s => hR _ _ (h s)

/-- What every run keeps, a run from `s` keeps. -/
theorem Within.spec (h : Within R x) (s : σ) : Spec crash x s fun _ s' => R s s' := fun _ => h s

theorem within_modifyGet {g : σ → α × σ} (h : ∀ s, R s (g s).2) :
    Within R (modifyGet g : ExceptT ε (StateM σ) α) := h

theorem within_modify {g : σ → σ} (h : ∀ s, R s (g s)) :
    Within R (modify g : ExceptT ε (StateM σ) PUnit) := h

section

variable [IsPreorder σ R]

theorem within_pure (a : α) : Within R (pure a : ExceptT ε (StateM σ) α) := fun s => refl_of R s

theorem within_throw (e : ε) : Within R (throw e : ExceptT ε (StateM σ) α) := fun s => refl_of R s

theorem within_throw_bind (e : ε) (f : α → ExceptT ε (StateM σ) β) : Within R (throw e >>= f) :=
  fun s => refl_of R s

theorem within_get : Within R (get : ExceptT ε (StateM σ) σ) := fun s => refl_of R s

/-- A preorder that the steps keep is kept from end to end. -/
theorem Within.bind {f : α → ExceptT ε (StateM σ) β} (hx : Within R x)
    (hf : ∀ a, Within R (f a)) : Within R (x >>= f) := by
  intro s
  rw [exec_bind]
  have hs := hx s
  rcases hr : exec x s with ⟨r, s'⟩
  rw [hr] at hs
  cases r with
  | error e => exact hs
  | ok a => exact trans_of R hs (hf a s')

end

/-! ### Programs that do not tell states apart -/

/-- On related states the program has one outcome, and it leaves related states. -/
def Respects (R : σ → σ → Prop) (x : ExceptT ε (StateM σ) α) : Prop :=
  ∀ s t, R s t → (exec x s).1 = (exec x t).1 ∧ R (exec x s).2 (exec x t).2

theorem respects_pure (a : α) : Respects R (pure a : ExceptT ε (StateM σ) α) :=
  fun _ _ h => ⟨rfl, h⟩

theorem respects_throw (e : ε) : Respects R (throw e : ExceptT ε (StateM σ) α) :=
  fun _ _ h => ⟨rfl, h⟩

theorem respects_throw_bind (e : ε) (f : α → ExceptT ε (StateM σ) β) :
    Respects R (throw e >>= f) :=
  fun _ _ h => ⟨rfl, h⟩

/-- A step respects a relation if it returns the same on related states and leaves related ones. -/
theorem respects_modifyGet {g : σ → α × σ} (h : ∀ s t, R s t → (g s).1 = (g t).1)
    (hR : ∀ s t, R s t → R (g s).2 (g t).2) :
    Respects R (modifyGet g : ExceptT ε (StateM σ) α) :=
  fun s t hst => ⟨congrArg Except.ok (h s t hst), hR s t hst⟩

theorem respects_modify {g : σ → σ} (hR : ∀ s t, R s t → R (g s) (g t)) :
    Respects R (modify g : ExceptT ε (StateM σ) PUnit) :=
  fun s t hst => ⟨rfl, hR s t hst⟩

/-- Related states go through a chain together, since they get the same values on the way. -/
theorem Respects.bind {f : α → ExceptT ε (StateM σ) β} (hx : Respects R x)
    (hf : ∀ a, Respects R (f a)) : Respects R (x >>= f) := by
  intro s t hst
  obtain ⟨houtcome, hstate⟩ := hx s t hst
  rw [exec_bind, exec_bind]
  rcases hs : exec x s with ⟨r, s'⟩
  rcases ht : exec x t with ⟨r', t'⟩
  rw [hs, ht] at houtcome hstate
  obtain rfl : r = r' := houtcome
  cases r with
  | ok a => exact hf a s' t' hstate
  | error e => exact ⟨rfl, hstate⟩

/-- Reading the state, for a continuation that does not see the difference. -/
theorem respects_get_bind {f : σ → ExceptT ε (StateM σ) β} (h : ∀ s t, R s t → f t = f s)
    (hf : ∀ s, Respects R (f s)) : Respects R (get >>= f) := by
  intro s t hst
  have ht : exec (get >>= f) t = exec (f s) t := by rw [← h s t hst]; rfl
  rw [ht]
  exact hf s s t hst

theorem Respects.tryCatch {handler : ε → ExceptT ε (StateM σ) α} (hx : Respects R x)
    (hh : ∀ e, Respects R (handler e)) : Respects R (tryCatch x handler) := by
  intro s t hst
  obtain ⟨houtcome, hstate⟩ := hx s t hst
  rw [exec_tryCatch, exec_tryCatch]
  rcases hs : exec x s with ⟨r, s'⟩
  rcases ht : exec x t with ⟨r', t'⟩
  rw [hs, ht] at houtcome hstate
  obtain rfl : r = r' := houtcome
  cases r with
  | ok a => exact ⟨rfl, hstate⟩
  | error e => exact hh e s' t' hstate

end Prog
