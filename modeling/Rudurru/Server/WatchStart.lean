import Rudurru.Server.Channels

/-!
# Rudurru.Server.WatchStart

From which revision on a watcher gets events.

Phase 1 and live notification compare a record with the start revision of a watcher. Phase 2 does
not: a watch from a later revision on is sent what is written between its checkpoint and its
registration (`events_from_start`, `future_watch_sees_past`).

The proof is one more use of `Server.Channels`, with the bound on revisions as the property of a
channel. Phase 1 and notification keep it without a condition; phase 2 keeps it if the records it
reads that match the watcher are not below the start.
-/

namespace Rudurru

/-! ### What is sent -/

/-- Nothing below the start revision was sent. -/
def WatchRegistration.FromStart (reg : WatchRegistration) : Prop :=
  ∀ event ∈ reg.sender, reg.startRevision ≤ event.revision

/-- Nothing below the start revision was sent so far. -/
def WatchContext.FromStart (ctx : WatchContext) : Prop :=
  ∀ event ∈ ctx.eventTx, ctx.pending.startRevision ≤ event.revision

theorem le_revision_of_changes {start : UInt64} {sent : List WatchEvent} {changes : List Change}
    (h : sent.map WatchEvent.change = changes) (hchanges : ∀ c ∈ changes, start ≤ c.revision) :
    ∀ event ∈ sent, start ≤ event.revision := by
  intro event hevent
  subst h
  exact hchanges event.change (List.mem_map_of_mem hevent)

/-- What is sent from the start revision on may be added. -/
theorem WatchContext.FromStart.receive {ctx : WatchContext} (h : ctx.FromStart)
    {sent : List WatchEvent} (hsent : ∀ event ∈ sent, ctx.pending.startRevision ≤ event.revision) :
    (ctx.receive sent).FromStart := by
  intro event hevent
  rcases List.mem_append.mp hevent with hevent | hevent
  · exact h event hevent
  · exact hsent event hevent

/-- Live notification compares with the start revision. -/
theorem WatchRegistration.FromStart.notifyWrites {reg : WatchRegistration} (h : reg.FromStart)
    (ws : List Write) : (notifyWrites ws reg).FromStart := by
  rw [notifyWrites_spec]
  intro event hevent
  rcases List.mem_append.mp hevent with hevent | hevent
  · exact h event hevent
  · obtain ⟨event₀, hevent₀, rfl⟩ := List.mem_map.mp hevent
    have hsent := (Bool.and_eq_true _ _).mp (List.mem_filter.mp hevent₀).2
    have hrev : (reg.strip event₀).revision = event₀.revision := by
      unfold WatchRegistration.strip
      split <;> rfl
    rw [hrev]
    exact of_decide_eq_true hsent.2

section

variable [Crates]

/-- So does phase 1. -/
theorem fromStart_phase1 {file : Bytes} {rev : UInt64} {active : List WatchContext}
    (h : ∀ ctx ∈ active, ctx.FromStart) :
    ∀ ctx ∈ (flushPhase1 file rev active).active, ctx.FromStart := by
  obtain ⟨sent, hactive, hsent⟩ := changes_phase1 rev (scanKvFile file 0).1
    { prevKvMap := ∅, active }
  intro ctx hctx
  rw [flushPhase1, hactive] at hctx
  obtain ⟨ctx₀, hctx₀, rfl⟩ := List.mem_map.mp hctx
  refine (h ctx₀ hctx₀).receive (le_revision_of_changes (hsent ctx₀) ?_)
  intro c hc
  exact of_decide_eq_true (List.mem_filter.mp hc).2

/-- Phase 2 does not: that nothing below it is wanted has to be known. -/
theorem fromStart_phase2 {file : Bytes} {rev : UInt64} {offset : Nat} {st : ReplayState}
    (h : ∀ ctx ∈ st.active, ctx.FromStart)
    (hlater : ∀ ctx ∈ st.active, ∀ c ∈ changesFor ctx.bound ctx.pending.filters
      ((scanKvFile file offset).1.filter (rev < ·.revision)),
        ctx.pending.startRevision ≤ c.revision) :
    ∀ ctx ∈ (flushPhase2 file rev offset st).active, ctx.FromStart := by
  obtain ⟨sent, hactive, hsent⟩ := changes_phase2 rev (scanKvFile file offset).1 st
  intro ctx hctx
  rw [flushPhase2, hactive] at hctx
  obtain ⟨ctx₀, hctx₀, rfl⟩ := List.mem_map.mp hctx
  exact (h ctx₀ hctx₀).receive (le_revision_of_changes (hsent ctx₀) (hlater ctx₀ hctx₀))

/-! ### Runs -/

/-- What phase 2 reads beyond the checkpoint and a watcher wants is not below its start
revision. -/
def Handoff.StepFromStart (h : Handoff) : HandoffEvent → Prop
  | .phase2 => ∀ f ∈ h.flush,
      match f.stage with
      | .catchingUp st => ∀ ctx ∈ st.active, ∀ c ∈ changesFor ctx.bound ctx.pending.filters
          ((scanKvFile h.sys.store.wal.contents f.checkpointOffset).1.filter
            (f.checkpointRev < ·.revision)), ctx.pending.startRevision ≤ c.revision
      | _ => True
  | _ => True

instance FlushStage.decidableCatchingUp (stage : FlushStage) (p : ReplayState → Prop)
    [∀ st, Decidable (p st)] : Decidable (match stage with | .catchingUp st => p st | _ => True) :=
  match stage with
  | .catchingUp st => inferInstanceAs (Decidable (p st))
  | .drained _ | .admitting _ _ _ | .opening _ | .scanning _ _ _ | .replying _ => .isTrue trivial

instance (h : Handoff) (ev : HandoffEvent) : Decidable (h.StepFromStart ev) :=
  match ev with
  | .phase2 => inferInstanceAs (Decidable (∀ f ∈ h.flush, _))
  | .server _ | .create _ | .checkpoint _ | .compactRev | .admission | .screen | .openWal
  | .phase1 _ | .reply => .isTrue trivial

/-- What the watchers of a flush have been sent. -/
def FlushRun.FromStart (f : FlushRun) : Prop :=
  match f.stage with
  | .drained _ | .replying _ => True
  | .admitting _ _ active | .opening active | .scanning _ _ active =>
      ∀ ctx ∈ active, ctx.FromStart
  | .catchingUp st => ∀ ctx ∈ st.active, ctx.FromStart

/-- No watcher was sent anything below its start revision. -/
structure FromStart (h : Handoff) : Prop where
  faults : h.sys.store.wal.faults = []
  watchers : ∀ reg ∈ h.sys.store.watchers, reg.FromStart
  flush : ∀ f ∈ h.flush, f.FromStart

omit [Crates] in
theorem fromStart_start {sys : System} (hs : sys.store.wal.faults = [])
    (hw : sys.store.watchers = []) : FromStart (.start sys) where
  faults := hs
  watchers := by simp [Handoff.start, hw]
  flush := by simp [Handoff.start]

omit [Crates] in
theorem fromStart_iff (f : FlushRun) :
    f.FromStart ↔ ∀ ctx ∈ f.stage.serving, ctx.FromStart := by
  unfold FlushRun.FromStart
  cases f.stage <;> simp [FlushStage.serving]

/-- **One step sends no watcher anything below its start revision**, if phase 2 does not. Phase 1
and live notification compare with the start revision themselves. -/
theorem FromStart.step {h h' : Handoff} {ev : HandoffEvent} (hfrom : FromStart h)
    (hlater : h.StepFromStart ev) (hstep : h.step ev = some h') : FromStart h' := by
  have hc : Channels WatchContext.FromStart WatchRegistration.FromStart h :=
    ⟨hfrom.faults, hfrom.watchers, fun f hf => (fromStart_iff f).mp (hfrom.flush f hf)⟩
  have hc' : Channels WatchContext.FromStart WatchRegistration.FromStart h' := by
    refine hc.step ?_ (fun ws reg hreg => hreg.notifyWrites ws) (fun ctx hctx => hctx) ?_ ?_ hstep
    · intro ctx hempty event hevent
      rw [hempty] at hevent
      cases hevent
    · intro n f opened orphan active _ _ _ hactive
      exact fromStart_phase1 hactive
    · intro f st hev hf hstage hactive
      subst hev
      have hwanted := hlater f hf
      rw [hstage] at hwanted
      exact fromStart_phase2 hactive hwanted
  exact ⟨hc'.faults, hc'.watchers, fun f hf => (fromStart_iff f).mpr (hc'.flush f hf)⟩

/-- **A watcher sees nothing from before its start revision**, in every run whose catch-ups find
nothing there that it wants. -/
theorem events_from_start {now : Nat} {contents : Bytes} {sys₀ : System}
    (hboot : System.boot now contents = some sys₀) {evs : List HandoffEvent} {h : Handoff}
    (hrun : (Handoff.start sys₀).run evs = some h)
    (hlater : Trace.Along Handoff.step Handoff.StepFromStart (.start sys₀) evs) :
    ∀ reg ∈ h.sys.store.watchers, ∀ event ∈ reg.sender, reg.startRevision ≤ event.revision := by
  obtain ⟨s₀, hopen, rfl⟩ := boot_eq_some hboot
  have hstart : FromStart (.start ⟨s₀, none⟩) := by
    obtain ⟨_, _, _, _, _, rfl⟩ := openStore_eq_ok hopen
    exact fromStart_start rfl rfl
  exact (Trace.invariant (fun _ _ _ hfrom hev hstep => hfrom.step hev hstep) hstart hlater
    hrun).watchers

end

/-- A watch from the next revision on, with a put between its checkpoint and its registration. -/
theorem events_from_start_now :
    ∃ sys₀ h, System.boot 0 [] = some sys₀ ∧
      (Handoff.start sys₀).run
        [.server (.request (.put { key := [1] })), .create { key := [1] }, .checkpoint 1,
          .compactRev, .admission, .screen, .openWal, .phase1 43,
          .server (.request (.put { key := [1] })), .phase2, .reply,
          .server (.request (.put { key := [1] }))] = some h ∧
      ∃ reg ∈ h.sys.store.watchers, reg.startRevision = 2 ∧
        reg.sender.map WatchEvent.revision = [2, 3] ∧
        ∀ event ∈ reg.sender, reg.startRevision ≤ event.revision := by
  have hrun : ((System.boot 0 []).any fun sys₀ =>
      decide (Trace.Along Handoff.step Handoff.StepFromStart (.start sys₀)
        [.server (.request (.put { key := [1] })), .create { key := [1] }, .checkpoint 1,
          .compactRev, .admission, .screen, .openWal, .phase1 43,
          .server (.request (.put { key := [1] })), .phase2, .reply,
          .server (.request (.put { key := [1] }))]) &&
      ((Handoff.start sys₀).run
        [.server (.request (.put { key := [1] })), .create { key := [1] }, .checkpoint 1,
          .compactRev, .admission, .screen, .openWal, .phase1 43,
          .server (.request (.put { key := [1] })), .phase2, .reply,
          .server (.request (.put { key := [1] }))]).any fun h =>
        h.sys.store.watchers.any fun reg => reg.startRevision = 2 ∧
          reg.sender.map WatchEvent.revision = [2, 3]) = true := by
    decide +kernel
  obtain ⟨sys₀, hboot, hrun⟩ := (Option.any_eq_true _ _).mp hrun
  obtain ⟨hlater, hrun⟩ := (Bool.and_eq_true _ _).mp hrun
  obtain ⟨h, hh, hreg⟩ := (Option.any_eq_true _ _).mp hrun
  obtain ⟨reg, hmem, hrevs⟩ := List.any_eq_true.mp hreg
  obtain ⟨hstart, hrevs⟩ := of_decide_eq_true hrevs
  exact ⟨sys₀, h, hboot, hh, reg, hmem, hstart, hrevs,
    events_from_start hboot hh (of_decide_eq_true hlater) reg hmem⟩

/-- A watch from revision 10 on is sent the put of revision 2, which came between its checkpoint
and its registration. -/
theorem future_watch_sees_past :
    ∃ sys₀ h, System.boot 0 [] = some sys₀ ∧
      (Handoff.start sys₀).run
        [.server (.request (.put { key := [1] })),
          .create { key := [1], startRevision := 10 }, .checkpoint 1, .compactRev, .admission,
          .screen, .openWal, .phase1 43, .server (.request (.put { key := [1] })), .phase2, .reply]
        = some h ∧
      ∃ reg ∈ h.sys.store.watchers, reg.startRevision = 10 ∧
        reg.sender.map WatchEvent.revision = [2] := by
  have hrun : ((System.boot 0 []).any fun sys₀ =>
      ((Handoff.start sys₀).run
        [.server (.request (.put { key := [1] })),
          .create { key := [1], startRevision := 10 }, .checkpoint 1, .compactRev, .admission,
          .screen, .openWal, .phase1 43, .server (.request (.put { key := [1] })), .phase2,
          .reply]).any
        fun h => h.sys.store.watchers.any fun reg => reg.startRevision = 10 ∧
          reg.sender.map WatchEvent.revision = [2]) = true := by
    decide +kernel
  obtain ⟨sys₀, hboot, hrun⟩ := (Option.any_eq_true _ _).mp hrun
  obtain ⟨h, hh, hreg⟩ := (Option.any_eq_true _ _).mp hrun
  obtain ⟨reg, hmem, hrevs⟩ := List.any_eq_true.mp hreg
  obtain ⟨hstart, hrevs⟩ := of_decide_eq_true hrevs
  exact ⟨sys₀, h, hboot, hh, reg, hmem, hstart, hrevs⟩

end Rudurru
