import Rudurru.Lib.Prog
import Rudurru.Lib.Trace

/-!
# Rudurru.Lib.Refine

Comparing two programs that run on different states: one that does the work and one that says what
the work comes to.

`Refines crash x s y t Q E` holds if `x` from `s` and `y` from `t` end the same way: both return,
with values and states related by `Q`, or both fail, with the same error and states related by `E`.
Nothing is claimed where `x` crashes. The rules follow the structure of the two programs, with a
step on either side or on both.

`Trace.simulates` carries a comparison of steps over whole runs of two systems that report what they
do: `outputs` is everything a run has reported.
-/

namespace Prog

variable {σ τ ε α β α' β' : Type}

/-- `x` from `s` does what `y` does from `t`, unless it crashes. -/
def Refines (crash : ε → Prop) (x : ExceptT ε (StateM σ) α) (s : σ) (y : ExceptT ε (StateM τ) β)
    (t : τ) (Q : α → β → σ → τ → Prop) (E : σ → τ → Prop) : Prop :=
  (∀ e, (exec x s).1 = .error e → ¬ crash e) →
    match exec x s, exec y t with
    | (.ok a, s'), (.ok b, t') => Q a b s' t'
    | (.error e, s'), (.error e', t') => e = e' ∧ E s' t'
    | (.ok _, _), (.error _, _) | (.error _, _), (.ok _, _) => False

variable {crash : ε → Prop} {x : ExceptT ε (StateM σ) α} {y : ExceptT ε (StateM τ) β} {s : σ}
  {t : τ} {Q : α → β → σ → τ → Prop} {E : σ → τ → Prop}

theorem refines_pure {a : α} {b : β} (h : Q a b s t) :
    Refines crash (pure a) s (pure b) t Q E := fun _ => h

theorem refines_throw (e : ε) (h : E s t) :
    Refines crash (throw e : ExceptT ε (StateM σ) α) s (throw e : ExceptT ε (StateM τ) β) t Q E :=
  fun _ => ⟨rfl, h⟩

/-- Two programs that fail at once do not get to what follows. -/
theorem refines_throw_bind (e : ε) (f : α → ExceptT ε (StateM σ) α')
    (g : β → ExceptT ε (StateM τ) β') {Q : α' → β' → σ → τ → Prop} (h : E s t) :
    Refines crash (throw e >>= f) s (throw e >>= g) t Q E := fun _ => ⟨rfl, h⟩

theorem Refines.mono (h : Refines crash x s y t Q E) {Q' : α → β → σ → τ → Prop}
    {E' : σ → τ → Prop} (hQ : ∀ a b s' t', Q a b s' t' → Q' a b s' t')
    (hE : ∀ s' t', E s' t' → E' s' t') : Refines crash x s y t Q' E' := by
  intro hok
  have h := h hok
  rcases hx : exec x s with ⟨r, s'⟩
  rcases hy : exec y t with ⟨r', t'⟩
  rw [hx, hy] at h
  cases r with
  | ok a =>
      cases r' with
      | ok b => exact hQ a b s' t' h
      | error e => exact h
  | error e =>
      cases r' with
      | ok b => exact h
      | error e' => exact ⟨h.1, hE s' t' h.2⟩

/-- Sequencing on both sides. -/
theorem Refines.bind {f : α → ExceptT ε (StateM σ) α'} {g : β → ExceptT ε (StateM τ) β'}
    {Q' : α' → β' → σ → τ → Prop} (h : Refines crash x s y t Q E)
    (hfg : ∀ a b s' t', Q a b s' t' → Refines crash (f a) s' (g b) t' Q' E) :
    Refines crash (x >>= f) s (y >>= g) t Q' E := by
  intro hok
  rw [exec_bind] at hok ⊢
  rw [exec_bind]
  unfold Refines at h
  rcases hx : exec x s with ⟨r, s'⟩
  rcases hy : exec y t with ⟨r', t'⟩
  rw [hx] at h hok
  rw [hy] at h
  cases r with
  | ok a =>
      have h := h (by simp)
      cases r' with
      | ok b => exact hfg a b s' t' h hok
      | error e => exact h.elim
  | error e =>
      have h := h fun e' he => hok e' (by cases he; rfl)
      cases r' with
      | ok b => exact h.elim
      | error e' => exact h

/-- A first step of the left program whose run is known. -/
theorem refines_bind_left {f : α → ExceptT ε (StateM σ) α'} {Q : α' → β → σ → τ → Prop} {a : α}
    {s' : σ} (hx : exec x s = (.ok a, s')) (h : Refines crash (f a) s' y t Q E) :
    Refines crash (x >>= f) s y t Q E := by
  have hexec : exec (x >>= f) s = exec (f a) s' := by rw [exec_bind, hx]
  unfold Refines at h ⊢
  rw [hexec]
  exact h

/-- A first step of the right program whose run is known. -/
theorem refines_bind_right {g : β → ExceptT ε (StateM τ) β'} {Q : α → β' → σ → τ → Prop} {b : β}
    {t' : τ} (hy : exec y t = (.ok b, t')) (h : Refines crash x s (g b) t' Q E) :
    Refines crash x s (y >>= g) t Q E := by
  have hexec : exec (y >>= g) t = exec (g b) t' := by rw [exec_bind, hy]
  unfold Refines at h ⊢
  rw [hexec]
  exact h

/-- Both programs look at their states. -/
theorem refines_get_bind {f : σ → ExceptT ε (StateM σ) α'} {g : τ → ExceptT ε (StateM τ) β'}
    {Q : α' → β' → σ → τ → Prop} (h : Refines crash (f s) s (g t) t Q E) :
    Refines crash (get >>= f) s (get >>= g) t Q E := h

/-- The left program is known to succeed, if it returns, and the right one too. -/
theorem Spec.refines {b : β} {t' : τ} (h : Spec crash x s fun r s' => ∃ a, r = .ok a ∧ Q a b s' t')
    (hy : exec y t = (.ok b, t')) : Refines crash x s y t Q E := by
  intro hok
  obtain ⟨a, ha, hQ⟩ := h hok
  rcases hx : exec x s with ⟨r, s'⟩
  rw [hx] at ha hQ
  obtain rfl : r = .ok a := ha
  rw [hy]
  exact hQ

/-- Nothing is claimed of a program that crashes. -/
theorem refines_of_crash {e : ε} (hx : (exec x s).1 = .error e) (he : crash e) :
    Refines crash x s y t Q E := fun hok => absurd he (hok e hx)

/-- Two runs that are known. -/
theorem refines_of_exec {a : α} {b : β} {s' : σ} {t' : τ} (hx : exec x s = (.ok a, s'))
    (hy : exec y t = (.ok b, t')) (h : Q a b s' t') : Refines crash x s y t Q E := by
  intro _
  rw [hx, hy]
  exact h

/-- What a comparison says of the outcomes. -/
theorem Refines.outcome {x : ExceptT ε (StateM σ) α} {y : ExceptT ε (StateM τ) α}
    (h : Refines crash x s y t (fun a b s' t' => a = b ∧ E s' t') E)
    (hok : ∀ e, (exec x s).1 = .error e → ¬ crash e) :
    (exec x s).1 = (exec y t).1 ∧ E (exec x s).2 (exec y t).2 := by
  have h := h hok
  rcases hx : exec x s with ⟨r, s'⟩
  rcases hy : exec y t with ⟨r', t'⟩
  rw [hx, hy] at h
  cases r with
  | ok a =>
      cases r' with
      | ok b => exact ⟨congrArg Except.ok h.1, h.2⟩
      | error e => exact h.elim
  | error e =>
      cases r' with
      | ok b => exact h.elim
      | error e' => exact ⟨congrArg Except.error h.1, h.2⟩

end Prog

namespace Trace

variable {σ τ ε ε' ω : Type} {step : σ → ε → Option σ} {step' : τ → ε' → Option τ}
  {out : σ → ε → List ω} {out' : τ → ε' → List ω}

/-- What the steps of a run report. -/
def outputs (step : σ → ε → Option σ) (out : σ → ε → List ω) : σ → List ε → List ω
  | _, [] => []
  | s, ev :: evs => out s ev ++ ((step s ev).map fun s' => outputs step out s' evs).getD []

theorem outputs_singleton (s : σ) (ev : ε) : outputs step out s [ev] = out s ev := by
  rw [outputs]
  cases step s ev <;> exact List.append_nil _

theorem outputs_append {s s' : σ} {evs evs' : List ε} (h : run step s evs = some s') :
    outputs step out s (evs ++ evs') = outputs step out s evs ++ outputs step out s' evs' := by
  induction evs generalizing s with
  | nil =>
      cases h
      rfl
  | cons ev evs ih =>
      rw [run_cons, Option.bind_eq_some_iff] at h
      obtain ⟨s₁, hs₁, hrest⟩ := h
      rw [List.cons_append, outputs, outputs, hs₁, Option.map_some, Option.map_some,
        Option.getD_some, Option.getD_some, ih hrest, List.append_assoc]

/-- **Forward simulation.** Every admissible step is matched by some steps of the other system that
report the same, so every admissible run is. -/
theorem simulates {R : σ → τ → Prop} {P : σ → ε → Prop}
    (hstep : ∀ s ev s' t, R s t → P s ev → step s ev = some s' → ∃ evs' t',
      run step' t evs' = some t' ∧ R s' t' ∧ outputs step' out' t evs' = out s ev)
    {s s' : σ} {t : τ} {evs : List ε} (h : R s t) (halong : Along step P s evs)
    (hrun : run step s evs = some s') :
    ∃ evs' t', run step' t evs' = some t' ∧ R s' t' ∧
      outputs step' out' t evs' = outputs step out s evs := by
  induction evs generalizing s t with
  | nil =>
      cases hrun
      exact ⟨[], t, rfl, h, rfl⟩
  | cons ev evs ih =>
      rw [run_cons, Option.bind_eq_some_iff] at hrun
      obtain ⟨s₁, hs₁, hrest⟩ := hrun
      obtain ⟨evs₁, t₁, hrun₁, h₁, hout₁⟩ := hstep s ev s₁ t h halong.1 hs₁
      obtain ⟨evs₂, t₂, hrun₂, h₂, hout₂⟩ := ih h₁ (halong.2 s₁ hs₁) hrest
      refine ⟨evs₁ ++ evs₂, t₂, run_append_eq_some.mpr ⟨t₁, hrun₁, hrun₂⟩, h₂, ?_⟩
      rw [outputs_append hrun₁, hout₁, hout₂, outputs, hs₁]
      rfl

end Trace
