import Rudurru.Restart
import Rudurru.Server.Delivery

/-!
# Rudurru.Server.HandoffSound

**What a watcher has been sent**, in every state that any interleaving of a flush with the rest
of the server leads to: the records phase 1 read up to the checkpoint, those phase 2 read beyond
it, and those appended since it was registered, as far as they match its range and its filters
(`Accounted`). What follows for a watcher then depends on what the scans read and on nothing else.

An account is kept beside the code: an `Origin` remembers which records each phase has read and how
long the log was when the watcher was registered. The code knows nothing of origins, and no step
depends on one. What a step does to them is said once, in `Moves`; the later modules (which events
are sent, from which revision, in which order) start from `Accounted` and look at the records behind
a watcher only.

`Placed` is about the file itself. Unless a compaction has replaced it, the records appended since a
checkpoint stand from the offset of the checkpoint on, and phase 2 reads them (`Placed.scan`).
-/

namespace Rudurru

/-! ### One step

The inversion of a step, for a WAL whose appends succeed. Each constructor gives the state after the
event in full, with the conditions under which the event can happen.
-/

/-- A create that is served starts with an empty channel. -/
theorem eventTx_of_admitCreate {s : StoreState} {c : GlobalCreate} {ctx : WatchContext}
    (h : admitCreate s c = .ok ctx) :
    ctx.eventTx = [] ∧ ctx.bound = resolveRange ctx.pending.key ctx.pending.rangeEnd := by
  obtain ⟨-, rfl⟩ := admitCreate_eq_ok h
  exact ⟨rfl, rfl⟩

theorem mem_of_mem_screenDuplicates {s : StoreState} {active : List WatchContext}
    {ctx : WatchContext} (h : ctx ∈ (screenDuplicates s active).active) : ctx ∈ active := by
  unfold screenDuplicates at h
  dsimp only at h
  generalize (duplicateIds s active).reverse = rejected at h
  induction rejected generalizing active with
  | nil => exact h
  | cons i rejected ih => exact mem_of_mem_swapRemove (ih h)

section

variable [Crates]

theorem boot_eq_some {now : Nat} {contents : Bytes} {sys : System}
    (h : System.boot now contents = some sys) :
    ∃ s, openStore now contents = .ok s ∧ sys = { store := s, compaction := none } := by
  obtain ⟨s, hs, rfl⟩ := Option.map_eq_some_iff.mp h
  exact ⟨s, Prog.ok_of_toOption hs, rfl⟩

namespace Handoff

/-- What an event can do, for a WAL whose appends succeed. -/
inductive Moves (h : Handoff) : HandoffEvent → Handoff → Prop
  | request {q : Request} {ws : List Write} {s' : StoreState} :
      answer h.sys.store q = some s' → Published h.sys.store ws s' →
      Moves h (.server (.request q)) { h with sys := { h.sys with store := s' } }
  | cancelWatch {watchId : Int64} :
      Moves h (.server (.cancelWatch watchId))
        { h with
          sys := { h.sys with store := h.sys.store.cancelWatcher watchId }
          origins := h.cancelOrigins watchId }
  | compactA : h.sys.compaction = none →
      Moves h (.server .compactA)
        { h with sys := { h.sys with compaction := some h.sys.store.compactPhaseA } }
  | compactB {c c' : Compaction} : h.sys.compaction = some c → c'.target = c.target →
      c'.walSize = c.walSize →
      Moves h (.server .compactB) { h with sys := { h.sys with compaction := some c' } }
  | compactC {c : Compaction} : h.sys.compaction = some c →
      Moves h (.server .compactC)
        { h with
          sys := { store := h.sys.store.compactPhaseC c.target c.walSize, compaction := none }
          flush := h.flush.map (·.swap h.sys.store.wal.contents) }
  | compactFails :
      Moves h (.server .compactFails) { h with sys := { h.sys with compaction := none } }
  | restart {now : Nat} {s' : StoreState} : openStore now h.sys.store.wal.contents = .ok s' →
      Moves h (.server (.restart now)) (start { store := s', compaction := none })
  | create {req : WatchCreateRequest} : Moves h (.create req) (h.create req)
  | checkpoint {n : Nat} : h.flush = none →
      Moves h (.checkpoint n)
        { h with
          queue := h.queue.drop n
          flush := some
            { checkpointRev := h.sys.store.currentRevision
              checkpointOffset := h.sys.store.wal.contents.length
              stage := .drained (h.queue.take n), position := h.sys.store.wal.log.length
              swapped := false, scanned := [] } }
  | compactRev {f : FlushRun} {batch : List GlobalCreate} :
      h.flush = some f → f.stage = .drained batch →
      Moves h .compactRev
        { h with flush := some { f with stage := .admitting h.sys.store.compactRev batch [] } }
  | refuse {f : FlushRun} {rev : UInt64} {c : GlobalCreate} {batch : List GlobalCreate}
      {active : List WatchContext} {resp : WatchResponse} :
      h.flush = some f → f.stage = .admitting rev (c :: batch) active →
      admitCreate { h.sys.store with compactRev := rev } c = .error resp →
      Moves h .admission
        { h with
          replies := h.replies ++ [(c.reply, resp)]
          flush := some { f with stage := .admitting rev batch active } }
  | admission {f : FlushRun} {rev : UInt64} {c : GlobalCreate} {batch : List GlobalCreate}
      {active : List WatchContext} {ctx : WatchContext} :
      h.flush = some f → f.stage = .admitting rev (c :: batch) active →
      admitCreate { h.sys.store with compactRev := rev } c = .ok ctx →
      Moves h .admission
        { h with flush := some { f with stage := .admitting rev batch (active ++ [ctx]) } }
  | screen {f : FlushRun} {rev : UInt64} {active : List WatchContext} :
      h.flush = some f → f.stage = .admitting rev [] active →
      Moves h .screen
        { h with
          replies := h.replies ++ (screenDuplicates h.sys.store active).replies
          flush := if (screenDuplicates h.sys.store active).active = [] then none
            else some { f with stage := .opening (screenDuplicates h.sys.store active).active } }
  | openWal {f : FlushRun} {active : List WatchContext} :
      h.flush = some f → f.stage = .opening active →
      Moves h .openWal
        { h with
          flush := some { f with
            stage := .scanning h.sys.store.wal.contents.length none active } }
  | phase1 {f : FlushRun} {n opened : Nat} {orphan : Option Bytes} {active : List WatchContext} :
      h.flush = some f → f.stage = .scanning opened orphan active → opened ≤ n →
      n ≤ (orphan.getD h.sys.store.wal.contents).length →
      Moves h (.phase1 n)
        { h with
          flush := some { f with
            stage := .catchingUp (flushPhase1 ((orphan.getD h.sys.store.wal.contents).take n)
              f.checkpointRev active)
            scanned := (scanKvFile ((orphan.getD h.sys.store.wal.contents).take n) 0).1 } }
  | phase2 {f : FlushRun} {st : ReplayState} : h.flush = some f → f.stage = .catchingUp st →
      Moves h .phase2
        { h with
          sys := { h.sys with
            store := (flushPhase2 h.sys.store.wal.contents f.checkpointRev f.checkpointOffset
              st).active.foldl (fun s ctx => s.registerWatcher ctx.registration) h.sys.store }
          flush := some { f with
            stage := .replying (flushPhase2 h.sys.store.wal.contents f.checkpointRev
              f.checkpointOffset st).active }
          origins := h.origins ++ (flushPhase2 h.sys.store.wal.contents f.checkpointRev
            f.checkpointOffset st).active.map (f.origin h.sys.store.wal) }
  | reply {f : FlushRun} {ctx : WatchContext} {active : List WatchContext} :
      h.flush = some f → f.stage = .replying (ctx :: active) →
      Moves h .reply
        { h with
          replies := h.replies ++ [(ctx.reply, createdResponse h.sys.store ctx)]
          flush := if active = [] then none else some { f with stage := .replying active } }

theorem moves_of_serverStep {h h' : Handoff} {ev : Event} (hs : h.sys.store.wal.faults = [])
    (hstep : h.serverStep ev = some h') : Moves h (.server ev) h' := by
  cases ev with
  | watch batch => cases hstep
  | request q =>
      obtain ⟨sys', hsys, rfl⟩ := Option.map_eq_some_iff.mp hstep
      obtain ⟨s', hq, rfl⟩ := Option.map_eq_some_iff.mp hsys
      obtain ⟨ws, hws⟩ := answer_published hs hq
      exact .request hq hws
  | cancelWatch watchId =>
      cases hstep
      exact .cancelWatch
  | restart now =>
      obtain ⟨sys', hsys, rfl⟩ := Option.map_eq_some_iff.mp hstep
      obtain ⟨s', hs', rfl⟩ := Option.map_eq_some_iff.mp hsys
      exact .restart (Prog.ok_of_toOption hs')
  | compactFails =>
      cases hstep
      exact .compactFails
  | compactA | compactB | compactC =>
      obtain ⟨sys', hsys, rfl⟩ := Option.map_eq_some_iff.mp hstep
      cases System.moves_of_step hs hsys
      constructor <;> assumption

theorem moves_of_flushStep {h h' : Handoff} {f : FlushRun} {ev : HandoffEvent}
    (hf : h.flush = some f) (hstep : h.flushStep f ev = some h') : Moves h ev h' := by
  cases ev with
  | server ev => cases hstep
  | create req => cases hstep
  | checkpoint n => cases hstep
  | compactRev =>
      simp only [flushStep] at hstep
      split at hstep
      · next hstage =>
          cases hstep
          exact .compactRev hf hstage
      · cases hstep
  | admission =>
      simp only [flushStep] at hstep
      split at hstep
      · next hstage =>
          split at hstep
          · next hresp =>
              cases hstep
              exact .refuse hf hstage hresp
          · next hctx =>
              cases hstep
              exact .admission hf hstage hctx
      · cases hstep
  | screen =>
      simp only [flushStep] at hstep
      split at hstep
      · next hstage =>
          cases hstep
          exact .screen hf hstage
      · cases hstep
  | openWal =>
      simp only [flushStep] at hstep
      split at hstep
      · next hstage =>
          cases hstep
          exact .openWal hf hstage
      · cases hstep
  | phase1 n =>
      simp only [flushStep] at hstep
      split at hstep
      · next hstage =>
          split at hstep
          · next hn =>
              cases hstep
              exact .phase1 hf hstage hn.1 hn.2
          · cases hstep
      · cases hstep
  | phase2 =>
      simp only [flushStep] at hstep
      split at hstep
      · next hstage =>
          cases hstep
          exact .phase2 hf hstage
      · cases hstep
  | reply =>
      simp only [flushStep] at hstep
      split at hstep
      · next hstage =>
          cases hstep
          exact .reply hf hstage
      · cases hstep

theorem moves_of_step {h h' : Handoff} {ev : HandoffEvent} (hs : h.sys.store.wal.faults = [])
    (hstep : h.step ev = some h') : Moves h ev h' := by
  cases ev with
  | server ev => exact moves_of_serverStep hs hstep
  | create req =>
      cases hstep
      exact .create
  | checkpoint n =>
      simp only [step] at hstep
      split at hstep
      · next hn =>
          cases hstep
          exact .checkpoint (Option.isNone_iff_eq_none.mp hn.1)
      · cases hstep
  | compactRev | admission | screen | openWal | phase1 n | phase2 | reply =>
      obtain ⟨f, hf, hflush⟩ := Option.bind_eq_some_iff.mp hstep
      exact moves_of_flushStep hf hflush

/-- Beside the flush an event is one of the server; the steps of the flush change nothing but the
watchers. -/
theorem sys_of_step {h h' : Handoff} {ev : HandoffEvent} (hs : h.sys.store.wal.faults = [])
    (hstep : h.step ev = some h') :
    (∃ e, ev = .server e ∧ h.sys.step e = some h'.sys) ∨
      ∃ s', Quiet h.sys.store s' ∧ h'.sys = { h.sys with store := s' } := by
  cases ev with
  | server e =>
      refine .inl ⟨e, rfl, ?_⟩
      cases e with
      | watch batch => cases hstep
      | cancelWatch _ | compactFails =>
          cases hstep
          rfl
      | request _ | restart _ | compactA | compactB | compactC =>
          obtain ⟨sys', hsys, rfl⟩ := Option.map_eq_some_iff.mp hstep
          exact hsys
  | create _ | checkpoint _ | compactRev | admission | screen | openWal | phase1 _ | reply =>
      refine .inr ⟨h.sys.store, .refl _, ?_⟩
      cases moves_of_step hs hstep <;> rfl
  | phase2 =>
      cases moves_of_step hs hstep
      exact .inr ⟨_, quiet_registerAll _ _, rfl⟩

theorem faults_of_step {h h' : Handoff} {ev : HandoffEvent} (hs : h.sys.store.wal.faults = [])
    (hstep : h.step ev = some h') : h'.sys.store.wal.faults = [] := by
  cases moves_of_step hs hstep with
  | request _ hpub => exact hpub.faults
  | restart hopen =>
      obtain ⟨_, _, _, _, _, rfl⟩ := openStore_eq_ok hopen
      rfl
  | @phase2 f st =>
      rw [(quiet_registerAll _ h.sys.store).wal]
      exact hs
  | _ => exact hs

/-- What the steps of the server need: records fit their format and the counter counts. -/
def StepOk (h : Handoff) : HandoffEvent → Prop
  | .server ev => h.sys.StepOk ev
  | _ => True

instance (h : Handoff) (ev : HandoffEvent) : Decidable (h.StepOk ev) :=
  match ev with
  | .server ev => inferInstanceAs (Decidable (h.sys.StepOk ev))
  | .create _ | .checkpoint _ | .compactRev | .admission | .screen | .openWal | .phase1 _ | .phase2
  | .reply => .isTrue trivial

end Handoff

/-! ### Accounts

A watcher is sent events from three places, and an account has one part for each. The parts are
filters of lists of records, so a property of what was sent is a property of these lists.
-/

/-- The changes that phase 1 sends of the records it reads. -/
def sentBefore (start checkpointRev : UInt64) (bound : RangeBound) (filters : List Int32)
    (recs : List KvWalRecord) : List Change :=
  (changesFor bound filters (recs.filter (·.revision ≤ checkpointRev))).filter
    (start ≤ ·.revision)

/-- The records behind a watcher: those phase 1 read up to the checkpoint, those phase 2 read
beyond it, and those appended since. -/
def Origin.records (o : Origin) (log : List KvWalRecord) : List KvWalRecord :=
  o.scanned₁.filter (·.revision ≤ o.checkpointRev)
    ++ o.scanned₂.filter (o.checkpointRev < ·.revision) ++ log.drop o.registered

omit [Crates] in
theorem Origin.records_append {o : Origin} {log : List KvWalRecord}
    (h : o.registered ≤ log.length) (news : List KvWalRecord) :
    o.records (log ++ news) = o.records log ++ news := by
  rw [records, records, List.drop_append_of_le_length h, List.append_assoc _ _ news]

/-- Nothing has been appended since at first. -/
theorem FlushRun.drop_registered (f : FlushRun) (wal : WalFile) (ctx : WatchContext) :
    wal.log.drop (f.origin wal ctx).registered = [] := List.drop_length

/-- What a watcher has been sent, by where it comes from. -/
structure Account (log : List KvWalRecord) (reg : WatchRegistration) (o : Origin) : Prop where
  bound : reg.bound = resolveRange reg.key reg.rangeEnd
  registered_le : o.registered ≤ log.length
  changes : reg.changes
    = sentBefore reg.startRevision o.checkpointRev reg.bound reg.filters o.scanned₁
      ++ changesFor reg.bound reg.filters (o.scanned₂.filter (o.checkpointRev < ·.revision))
      ++ (changesFor reg.bound reg.filters (log.drop o.registered)).filter
          (reg.startRevision ≤ ·.revision)

omit [Crates] in
/-- A watcher has been sent nothing but the records behind it that it wants. -/
theorem Account.sublist {log : List KvWalRecord} {reg : WatchRegistration} {o : Origin}
    (h : Account log reg o) :
    reg.changes.Sublist (changesFor reg.bound reg.filters (o.records log)) := by
  rw [h.changes, Origin.records, changesFor_append, changesFor_append]
  exact (List.filter_sublist.append (List.Sublist.refl _)).append List.filter_sublist

/-- What the watchers of a flush have been sent. -/
def FlushRun.Account (f : FlushRun) : Prop :=
  match f.stage with
  | .drained _ | .replying _ => True
  | .admitting _ _ active | .opening active | .scanning _ _ active =>
      ∀ ctx ∈ active, ctx.eventTx = [] ∧
        ctx.bound = resolveRange ctx.pending.key ctx.pending.rangeEnd
  | .catchingUp st =>
      ∀ ctx ∈ st.active, ctx.bound = resolveRange ctx.pending.key ctx.pending.rangeEnd ∧
        ctx.changes = sentBefore ctx.pending.startRevision f.checkpointRev ctx.bound
          ctx.pending.filters f.scanned

/-- **Every watcher has been sent what its origin says.** -/
structure Accounted (h : Handoff) : Prop where
  faults : h.sys.store.wal.faults = []
  length : h.sys.store.watchers.length = h.origins.length
  watched : ∀ p ∈ h.watched, Account h.sys.store.wal.log p.1 p.2
  flush : ∀ f ∈ h.flush, f.Account

omit [Crates] in
/-- A new process has no watchers. -/
theorem accounted_start {sys : System} (hs : sys.store.wal.faults = [])
    (hw : sys.store.watchers = []) : Accounted (.start sys) where
  faults := hs
  length := by simp [Handoff.start, hw]
  watched := by simp [Handoff.watched, Handoff.start]
  flush := by simp [Handoff.start]

omit [Crates] in
/-- Replacing the file leaves the channels of a flush alone. -/
theorem FlushRun.Account.swap {f : FlushRun} (h : f.Account) (contents : Bytes) :
    (f.swap contents).Account := by
  unfold FlushRun.Account at h ⊢
  unfold FlushRun.swap
  cases hstage : f.stage with
  | scanning opened orphan active =>
      rw [hstage] at h
      cases orphan <;> exact h
  | drained batch => trivial
  | admitting rev batch active =>
      rw [hstage] at h
      exact h
  | opening active =>
      rw [hstage] at h
      exact h
  | catchingUp st =>
      rw [hstage] at h
      exact h
  | replying active => trivial

omit [Crates] in
theorem watchers_cancel {h : Handoff} (hlen : h.sys.store.watchers.length = h.origins.length)
    (watchId : Int64) :
    (h.watched.filter (·.1.watchId ≠ watchId)).map Prod.fst
      = (h.sys.store.cancelWatcher watchId).watchers := by
  have hfst : h.watched.map Prod.fst = h.sys.store.watchers :=
    List.map_fst_zip (Nat.le_of_eq hlen)
  conv_rhs => rw [StoreState.cancelWatcher, ← hfst, List.filter_map]
  rfl

omit [Crates] in
/-- Cancelling takes the watchers of an id out, with their origins. -/
theorem watched_cancel {h : Handoff} (hlen : h.sys.store.watchers.length = h.origins.length)
    (watchId : Int64) :
    (h.sys.store.cancelWatcher watchId).watchers.zip (h.cancelOrigins watchId)
      = h.watched.filter (·.1.watchId ≠ watchId) :=
  (List.zip_of_prod (watchers_cancel hlen watchId) rfl).symm

omit [Crates] in
theorem length_cancel {h : Handoff} (hlen : h.sys.store.watchers.length = h.origins.length)
    (watchId : Int64) :
    (h.sys.store.cancelWatcher watchId).watchers.length = (h.cancelOrigins watchId).length := by
  rw [← watchers_cancel hlen, List.length_map, Handoff.cancelOrigins, List.length_map]
  rfl

omit [Crates] in
theorem mem_origins_of_cancel {h : Handoff} {watchId : Int64} {o : Origin}
    (ho : o ∈ h.cancelOrigins watchId) : o ∈ h.origins := by
  obtain ⟨p, hp, rfl⟩ := List.mem_map.mp ho
  exact (List.of_mem_zip (List.mem_filter.mp hp).1).2

omit [Crates] in
/-- Every watcher has an origin. -/
theorem exists_origin {h : Handoff} (hacc : Accounted h) {reg : WatchRegistration}
    (hreg : reg ∈ h.sys.store.watchers) : ∃ o, (reg, o) ∈ h.watched := by
  have hfst : h.watched.map Prod.fst = h.sys.store.watchers :=
    List.map_fst_zip (Nat.le_of_eq hacc.length)
  rw [← hfst, List.mem_map] at hreg
  obtain ⟨⟨reg, o⟩, ho, rfl⟩ := hreg
  exact ⟨o, ho⟩

variable [LawfulCrates]

/-- Writes go on the account of every watcher. -/
theorem Account.publish {log : List KvWalRecord} {reg : WatchRegistration} {o : Origin}
    (h : Account log reg o) {ws : List Write} (hfit : ∀ w ∈ ws, w.record.Fits) :
    Account (log ++ ws.map Write.record) (notifyWrites ws reg) o := by
  obtain ⟨sent, hsent, hchanges⟩ := changes_notifyWrites hfit reg
  rw [hsent]
  refine ⟨h.bound, ?_, ?_⟩
  · rw [List.length_append]
    exact Nat.le_add_right_of_le h.registered_le
  · rw [List.drop_append_of_le_length h.registered_le, changesFor_append, List.filter_append,
      ← List.append_assoc, ← h.changes, ← hchanges]
    exact List.map_append

omit [LawfulCrates] in
/-- The records of a request that is admissible fit. -/
theorem fits_of_stepFits {sys : System} {q : Request} {s' : StoreState} {ws : List Write}
    (h : sys.StepFits (.request q)) (hq : answer sys.store q = some s')
    (hlog : s'.wal.log = sys.store.wal.log ++ ws.map Write.record) :
    ∀ w ∈ ws, w.record.Fits := by
  intro w hw
  refine h s' hq w.record ?_
  rw [hlog]
  exact List.mem_append_right _ (List.mem_map_of_mem hw)

omit [LawfulCrates] in
/-- Phase 1 makes up the first part of every account. -/
theorem account_phase1 {file : Bytes} {rev : UInt64} {active : List WatchContext}
    (h : ∀ ctx ∈ active, ctx.eventTx = [] ∧
      ctx.bound = resolveRange ctx.pending.key ctx.pending.rangeEnd) :
    ∀ ctx ∈ (flushPhase1 file rev active).active,
      ctx.bound = resolveRange ctx.pending.key ctx.pending.rangeEnd ∧
        ctx.changes = sentBefore ctx.pending.startRevision rev ctx.bound ctx.pending.filters
          (scanKvFile file 0).1 := by
  obtain ⟨sent, hactive, hsent⟩ := changes_phase1 rev (scanKvFile file 0).1
    { prevKvMap := ∅, active }
  intro ctx hctx
  rw [flushPhase1, hactive] at hctx
  obtain ⟨ctx₀, hctx₀, rfl⟩ := List.mem_map.mp hctx
  obtain ⟨hempty, hbound⟩ := h ctx₀ hctx₀
  refine ⟨hbound, ?_⟩
  rw [WatchContext.changes, WatchContext.receive, hempty, List.nil_append]
  exact hsent ctx₀

omit [LawfulCrates] in
/-- Phase 2 completes the account of every watcher that it registers. -/
theorem account_phase2 {f : FlushRun} {st : ReplayState} (wal : WalFile)
    (h : ∀ ctx ∈ st.active, ctx.bound = resolveRange ctx.pending.key ctx.pending.rangeEnd ∧
      ctx.changes = sentBefore ctx.pending.startRevision f.checkpointRev ctx.bound
        ctx.pending.filters f.scanned) :
    ∀ ctx ∈ (flushPhase2 wal.contents f.checkpointRev f.checkpointOffset st).active,
      Account wal.log ctx.registration (f.origin wal ctx) := by
  obtain ⟨sent, hactive, hsent⟩ := changes_phase2 f.checkpointRev
    (scanKvFile wal.contents f.checkpointOffset).1 st
  intro ctx hctx
  rw [flushPhase2, hactive] at hctx
  obtain ⟨ctx₀, hctx₀, rfl⟩ := List.mem_map.mp hctx
  obtain ⟨hbound, hchanges⟩ := h ctx₀ hctx₀
  refine ⟨hbound, Nat.le_refl _, ?_⟩
  rw [FlushRun.drop_registered, changesFor_nil, List.filter_nil, List.append_nil]
  have hsum : (WatchContext.registration (ctx₀.receive (sent ctx₀))).changes
      = ctx₀.changes ++ (sent ctx₀).map WatchEvent.change := List.map_append
  rw [hsum, hchanges, hsent ctx₀]
  rfl

/-- **One step keeps the accounts.** A request adds to the third part of every account, phase 1
makes the first part, phase 2 the second. -/
theorem Accounted.step {h h' : Handoff} {ev : HandoffEvent} (hacc : Accounted h)
    (hok : h.StepOk ev) (hstep : h.step ev = some h') : Accounted h' := by
  cases Handoff.moves_of_step hacc.faults hstep with
  | @request q ws s' hq hpub =>
      have hfit := fits_of_stepFits hok.1 hq hpub.log
      have hwatched : s'.watchers.zip h.origins
          = h.watched.map fun p => (notifyWrites ws p.1, p.2) := by
        rw [hpub.watchers, List.zip_map_left]
        rfl
      refine ⟨hpub.faults, ?_, ?_, hacc.flush⟩
      · rw [hpub.watchers, List.length_map]
        exact hacc.length
      · intro p hp
        rw [Handoff.watched, hwatched] at hp
        obtain ⟨p₀, hp₀, rfl⟩ := List.mem_map.mp hp
        rw [hpub.log]
        -- a write sends to every channel what its record would be replayed as
        exact (hacc.watched p₀ hp₀).publish hfit
  | @cancelWatch watchId =>
      have hwatched := watched_cancel hacc.length watchId
      refine ⟨hacc.faults, ?_, ?_, hacc.flush⟩
      · exact length_cancel hacc.length watchId
      · intro p hp
        rw [Handoff.watched, hwatched] at hp
        exact hacc.watched p (List.mem_filter.mp hp).1
  | compactA | compactB | compactFails => exact ⟨hacc.faults, hacc.length, hacc.watched, hacc.flush⟩
  -- a swap in the middle of a flush leaves the old file to the scan that is under way
  | compactC =>
      refine ⟨hacc.faults, hacc.length, hacc.watched, ?_⟩
      intro f hf
      obtain ⟨f₀, hf₀, rfl⟩ := Option.map_eq_some_iff.mp hf
      exact (hacc.flush f₀ hf₀).swap _
  | restart hopen =>
      obtain ⟨recs, n, K, -, -, rfl⟩ := openStore_eq_ok hopen
      exact accounted_start rfl rfl
  | create => exact ⟨hacc.faults, hacc.length, hacc.watched, hacc.flush⟩
  | checkpoint =>
      refine ⟨hacc.faults, hacc.length, hacc.watched, ?_⟩
      intro f hf
      cases hf
      trivial
  | compactRev hf hstage =>
      refine ⟨hacc.faults, hacc.length, hacc.watched, ?_⟩
      intro f' hf'
      cases hf'
      simp [FlushRun.Account]
  | refuse hf hstage | openWal hf hstage =>
      refine ⟨hacc.faults, hacc.length, hacc.watched, ?_⟩
      intro f' hf'
      cases hf'
      have hflush := hacc.flush _ hf
      rw [FlushRun.Account, hstage] at hflush
      exact hflush
  | admission hf hstage hctx =>
      refine ⟨hacc.faults, hacc.length, hacc.watched, ?_⟩
      intro f' hf'
      cases hf'
      have hflush := hacc.flush _ hf
      rw [FlushRun.Account, hstage] at hflush
      intro ctx hmem
      rcases List.mem_append.mp hmem with hmem | hmem
      · exact hflush ctx hmem
      · rw [List.mem_singleton.mp hmem]
        exact eventTx_of_admitCreate hctx
  | screen hf hstage =>
      refine ⟨hacc.faults, hacc.length, hacc.watched, ?_⟩
      intro f' hf'
      have hflush := hacc.flush _ hf
      rw [FlushRun.Account, hstage] at hflush
      dsimp only at hf'
      split at hf'
      · cases hf'
      · cases hf'
        intro ctx hmem
        exact hflush ctx (mem_of_mem_screenDuplicates hmem)
  | phase1 hf hstage =>
      refine ⟨hacc.faults, hacc.length, hacc.watched, ?_⟩
      intro f' hf'
      cases hf'
      have hflush := hacc.flush _ hf
      rw [FlushRun.Account, hstage] at hflush
      exact account_phase1 hflush
  | @phase2 f st hf hstage =>
      have hflush := hacc.flush _ hf
      rw [FlushRun.Account, hstage] at hflush
      -- the channel now holds both replays, and its origin names the records they came from
      have hnew := account_phase2 h.sys.store.wal hflush
      generalize (flushPhase2 h.sys.store.wal.contents f.checkpointRev f.checkpointOffset
        st).active = active at hnew ⊢
      have hquiet := quiet_registerAll active h.sys.store
      have hwatchers := watchers_registerAll active h.sys.store
      refine ⟨?_, ?_, ?_, ?_⟩
      · rw [hquiet.wal]
        exact hacc.faults
      · rw [hwatchers, List.length_append, List.length_append, List.length_map, List.length_map,
          hacc.length]
      · intro p hp
        rw [Handoff.watched] at hp
        dsimp only at hp ⊢
        rw [hwatchers, List.zip_append hacc.length, List.mem_append] at hp
        rw [hquiet.wal]
        rcases hp with hp | hp
        · exact hacc.watched p hp
        · rw [List.zip_map'] at hp
          obtain ⟨ctx, hctx, rfl⟩ := List.mem_map.mp hp
          exact hnew ctx hctx
      · intro f' hf'
        cases hf'
        trivial
  | reply hf hstage =>
      refine ⟨hacc.faults, hacc.length, hacc.watched, ?_⟩
      intro f' hf'
      dsimp only at hf'
      split at hf'
      · cases hf'
      · cases hf'
        trivial

/-! ### The file under a flush

The checkpoint of a flush is a byte offset. It means something as long as the file under it is the
one it was taken in.
-/

/-- Unless the file was replaced, what was appended since the checkpoint stands from its offset
on. -/
structure FlushRun.Placed (f : FlushRun) (wal : WalFile) : Prop where
  position_le : f.position ≤ wal.log.length
  file : f.swapped = false → ∃ before : Bytes, before.length = f.checkpointOffset ∧
    wal.contents = before ++ serializeAll (wal.log.drop f.position)

/-- What this process appended can be read back, by a flush as well. -/
structure Placed (h : Handoff) : Prop where
  wellFormed : ∀ rec ∈ h.sys.store.wal.log, rec.WellFormed
  flush : ∀ f ∈ h.flush, f.Placed h.sys.store.wal

omit [LawfulCrates] in
theorem placed_start {sys : System} (hlog : sys.store.wal.log = []) : Placed (.start sys) where
  wellFormed := by simp [Handoff.start, hlog]
  flush := by simp [Handoff.start]

/-- What is appended lands behind. -/
theorem Placed.published {h : Handoff} (hplaced : Placed h) {s' : StoreState} {ws : List Write}
    (hpub : Published h.sys.store ws s') (hfit : ∀ w ∈ ws, w.record.Fits) :
    Placed { h with sys := { h.sys with store := s' } } where
  wellFormed := by
    intro rec hrec
    dsimp only at hrec
    rw [hpub.log] at hrec
    rcases List.mem_append.mp hrec with hrec | hrec
    · exact hplaced.wellFormed rec hrec
    · exact wellFormed_of_fits hfit rec hrec
  flush := by
    intro f hf
    obtain ⟨hposition, hfile⟩ := hplaced.flush f hf
    refine ⟨?_, ?_⟩
    · rw [hpub.log, List.length_append]
      exact Nat.le_add_right_of_le hposition
    · intro hswapped
      obtain ⟨before, hlength, hcontents⟩ := hfile hswapped
      refine ⟨before, hlength, ?_⟩
      rw [hpub.contents, hcontents, hpub.log, List.drop_append_of_le_length hposition,
        serializeAll_append, List.append_assoc]

/-- **One step leaves the records in place.** Requests append behind, a swap takes the promise back
for the flush that is under way. -/
theorem Placed.step {h h' : Handoff} {ev : HandoffEvent} (hplaced : Placed h)
    (hs : h.sys.store.wal.faults = []) (hok : h.StepOk ev) (hstep : h.step ev = some h') :
    Placed h' := by
  cases Handoff.moves_of_step hs hstep with
  | @request q ws s' hq hpub => exact hplaced.published hpub (fits_of_stepFits hok.1 hq hpub.log)
  | cancelWatch | compactA | compactB | compactFails | create => exact { hplaced with }
  | compactC =>
      refine ⟨hplaced.wellFormed, ?_⟩
      intro f' hf'
      obtain ⟨f, hf, rfl⟩ := Option.map_eq_some_iff.mp hf'
      -- the offset of the checkpoint meant the old file
      exact ⟨(hplaced.flush f hf).position_le, by simp [FlushRun.swap]⟩
  | restart hopen =>
      obtain ⟨_, _, _, _, _, rfl⟩ := openStore_eq_ok hopen
      exact placed_start rfl
  | checkpoint =>
      refine ⟨hplaced.wellFormed, ?_⟩
      intro f' hf'
      cases hf'
      refine ⟨Nat.le_refl _, ?_⟩
      intro _
      exact ⟨h.sys.store.wal.contents, rfl, by simp [serializeAll, FramedLog.encodeAll]⟩
  | compactRev hf | refuse hf | admission hf | openWal hf | phase1 hf =>
      refine ⟨hplaced.wellFormed, ?_⟩
      intro f' hf'
      cases hf'
      obtain ⟨hposition, hfile⟩ := hplaced.flush _ hf
      exact ⟨hposition, hfile⟩
  | screen hf | reply hf =>
      refine ⟨hplaced.wellFormed, ?_⟩
      intro f' hf'
      dsimp only at hf'
      split at hf'
      · cases hf'
      · cases hf'
        obtain ⟨hposition, hfile⟩ := hplaced.flush _ hf
        exact ⟨hposition, hfile⟩
  | @phase2 f st hf hstage =>
      generalize (flushPhase2 h.sys.store.wal.contents f.checkpointRev f.checkpointOffset
        st).active = active
      have hwal := (quiet_registerAll active h.sys.store).wal
      refine ⟨?_, ?_⟩
      · rw [hwal]
        exact hplaced.wellFormed
      · intro f' hf'
        cases hf'
        obtain ⟨hposition, hfile⟩ := hplaced.flush f hf
        rw [hwal]
        exact ⟨hposition, hfile⟩

omit [LawfulCrates] in
/-- Phase 2 of a flush that was not overtaken reads what was appended since its checkpoint. -/
theorem Placed.scan {h : Handoff} (hplaced : Placed h) {f : FlushRun} (hf : h.flush = some f)
    (hswapped : f.swapped = true → h.sys.store.wal.contents.drop f.checkpointOffset
      = serializeAll (h.sys.store.wal.log.drop f.position)) :
    (scanKvFile h.sys.store.wal.contents f.checkpointOffset).1
      = h.sys.store.wal.log.drop f.position := by
  have hdrop : h.sys.store.wal.contents.drop f.checkpointOffset
      = serializeAll (h.sys.store.wal.log.drop f.position) := by
    by_cases hs : f.swapped = true
    · exact hswapped hs
    · obtain ⟨before, hlength, hcontents⟩ := (hplaced.flush f hf).file (Bool.not_eq_true _ ▸ hs)
      rw [hcontents, ← hlength, List.drop_left]
  exact scanKvFile_offset (fun rec hrec => hplaced.wellFormed rec (List.mem_of_mem_drop hrec)) hdrop

end

end Rudurru
