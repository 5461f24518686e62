import Mathlib

/-!
# Rudurru.Lib.Trace

Runs of a partial step function `step : σ → ε → Option σ` over a list of events, where `none`
means that the run cannot go on.

`Along P s evs` says that every step of the run from `s` meets `P`, a condition on the event
and the state before it. The one induction of this file (`invariant`) turns a step lemma under
such a condition into a lemma about whole runs.
-/

namespace Trace

variable {σ ε : Type} {step : σ → ε → Option σ}

/-- The state after the events, if every step goes through. -/
def run (step : σ → ε → Option σ) (s : σ) (evs : List ε) : Option σ := evs.foldlM step s

@[simp] theorem run_nil (s : σ) : run step s [] = some s := rfl

@[simp] theorem run_cons (s : σ) (ev : ε) (evs : List ε) :
    run step s (ev :: evs) = (step s ev).bind fun s' => run step s' evs := rfl

theorem run_singleton (s : σ) (ev : ε) : run step s [ev] = step s ev := by
  rw [run_cons]
  exact Option.bind_fun_some _

/-- A run can be cut at any event. -/
theorem run_append (s : σ) (evs evs' : List ε) :
    run step s (evs ++ evs') = (run step s evs).bind fun s' => run step s' evs' := by
  rw [run, List.foldlM_append]
  rfl

/-- The state at the cut exists if the whole run succeeds. -/
theorem run_append_eq_some {s s'' : σ} {evs evs' : List ε} :
    run step s (evs ++ evs') = some s'' ↔
      ∃ s', run step s evs = some s' ∧ run step s' evs' = some s'' := by
  rw [run_append, Option.bind_eq_some_iff]

/-- Every step of the run meets the condition. -/
def Along (step : σ → ε → Option σ) (P : σ → ε → Prop) : σ → List ε → Prop
  | _, [] => True
  | s, ev :: evs => P s ev ∧ ∀ s' ∈ step s ev, Along step P s' evs

instance decidableAlong {P : σ → ε → Prop} [∀ s ev, Decidable (P s ev)] :
    ∀ (s : σ) (evs : List ε), Decidable (Along step P s evs)
  | _, [] => .isTrue trivial
  | s, ev :: evs =>
      have : ∀ s', Decidable (Along step P s' evs) := fun s' => decidableAlong s' evs
      inferInstanceAs (Decidable (P s ev ∧ ∀ s' ∈ step s ev, Along step P s' evs))

/-- A condition along a run is one along each of its parts, the second from where the first ends. -/
theorem along_append {P : σ → ε → Prop} {s : σ} {evs evs' : List ε} :
    Along step P s (evs ++ evs') ↔
      Along step P s evs ∧ ∀ s', run step s evs = some s' → Along step P s' evs' := by
  induction evs generalizing s with
  | nil => simp [Along]
  | cons ev evs ih =>
      simp only [List.cons_append, Along, ih, run_cons, Option.bind_eq_some_iff, Option.mem_def]
      constructor
      · rintro ⟨hev, hrest⟩
        refine ⟨⟨hev, fun s' hs' => (hrest s' hs').1⟩, ?_⟩
        rintro s'' ⟨s', hs', hrun⟩
        exact (hrest s' hs').2 s'' hrun
      · rintro ⟨⟨hev, hrest⟩, hrun⟩
        exact ⟨hev, fun s' hs' => ⟨hrest s' hs', fun s'' hs'' => hrun s'' ⟨s', hs', hs''⟩⟩⟩

theorem along_of_mem {Q : ε → Prop} {evs : List ε} (hQ : ∀ ev ∈ evs, Q ev) (s : σ) :
    Along step (fun _ ev => Q ev) s evs := by
  induction evs generalizing s with
  | nil => trivial
  | cons ev evs ih =>
      exact ⟨hQ ev (by simp), fun s' _ => ih (fun ev' hev' => hQ ev' (by simp [hev'])) s'⟩

/-- A condition on the events alone can be added to one on their states. -/
theorem Along.and_mem {P : σ → ε → Prop} {Q : ε → Prop} {s : σ} {evs : List ε}
    (h : Along step P s evs) (hQ : ∀ ev ∈ evs, Q ev) :
    Along step (fun s ev => P s ev ∧ Q ev) s evs := by
  induction evs generalizing s with
  | nil => trivial
  | cons ev evs ih =>
      refine ⟨⟨h.1, hQ ev (by simp)⟩, fun s' hs' => ih (h.2 s' hs') ?_⟩
      exact fun ev' hev' => hQ ev' (by simp [hev'])

/-- **What every admissible step keeps holds after every admissible run.** By induction on the
events, for all states at once. -/
theorem invariant {P : σ → ε → Prop} {Inv : σ → Prop}
    (hstep : ∀ s ev s', Inv s → P s ev → step s ev = some s' → Inv s') {s s' : σ} {evs : List ε}
    (h₀ : Inv s) (halong : Along step P s evs) (hrun : run step s evs = some s') : Inv s' := by
  induction evs generalizing s with
  | nil =>
      cases hrun
      exact h₀
  | cons ev evs ih =>
      rw [run_cons, Option.bind_eq_some_iff] at hrun
      obtain ⟨s₁, hs₁, hrest⟩ := hrun
      exact ih (hstep s ev s₁ h₀ halong.1 hs₁) (halong.2 s₁ hs₁) hrest

/-- What every step keeps holds after every run. -/
theorem invariant_of_step {Inv : σ → Prop}
    (hstep : ∀ s ev s', Inv s → step s ev = some s' → Inv s') {s s' : σ} {evs : List ε}
    (h₀ : Inv s) (hrun : run step s evs = some s') : Inv s' := by
  have hany : ∀ s, Along step (fun _ _ => True) s evs := by
    clear hrun h₀
    induction evs with
    | nil => exact fun s => trivial
    | cons ev evs ih => exact fun s => ⟨trivial, fun s' _ => ih s'⟩
  exact invariant (fun s ev s' h _ => hstep s ev s' h) h₀ (hany s) hrun

end Trace
