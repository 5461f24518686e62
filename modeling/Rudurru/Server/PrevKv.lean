import Rudurru.Server.Channels
import Rudurru.Server.ExactlyOnce
import Rudurru.Server.Rebuilt

/-!
# Rudurru.Server.PrevKv

Who is sent the previous value of a key.

`notify_watchers` clears it in the event of a watcher that has not asked for it. The phases of a
flush send every watcher the event as it is: one that has not asked gets no previous values as long
as what is replayed to it comes to keys without one, and no longer (`prevKv_on_request`,
`replay_sends_prevKv`). A watcher that has asked gets the event that was built for the write,
whichever way it comes (`Receives`).

For the watchers that have not asked the proof is a step lemma with `Server.Channels`: live
notification clears the field, and a phase sends it as it is, so the condition is on what the phases
come to. For those that have asked the question is which blob the event carries. Live, it is the
entry that was replaced; in a replay, it is what the records before it have left of the key.
`Server.Rebuilt` says that these are the same as long as the replay has seen the whole file, so the
invariant (`Rebuilds`) keeps the list of the writes that led to the store and what the scan of phase
1 has made of it.
-/

namespace Rudurru

open Std (ExtTreeMap)

/-! ### Watchers that have not asked -/

section

variable (inPhase : UInt64 → Bool) (wants : WatchContext → UInt64 → Bool)

/-- Every record that is sent to the watcher comes to a key without a value. -/
def FindsNoValue (ctx : WatchContext) : ExtTreeMap Bytes Bytes → List KvWalRecord → Prop
  | _, [] => True
  | blobs, rec :: recs =>
      (inPhase rec.revision = true → ∀ key ∈ rec.key, ctx.takes wants rec key = true →
        blobs[key]?.getD [] = []) ∧ FindsNoValue ctx (nextBlobs inPhase blobs rec) recs

instance FindsNoValue.decidable (ctx : WatchContext) : ∀ blobs recs,
    Decidable (FindsNoValue inPhase wants ctx blobs recs)
  | _, [] => .isTrue trivial
  | blobs, rec :: recs =>
      haveI := FindsNoValue.decidable ctx (nextBlobs inPhase blobs rec) recs
      inferInstanceAs (Decidable (_ ∧ _))

variable {inPhase wants}

/-- **A replay sends no previous value** exactly if it comes to keys without one. -/
theorem prevKvBytes_sentAll {ctx : WatchContext} {blobs : ExtTreeMap Bytes Bytes}
    {recs : List KvWalRecord} :
    (∀ e ∈ sentAll inPhase wants ctx blobs recs, e.prevKvBytes = []) ↔
      FindsNoValue inPhase wants ctx blobs recs := by
  induction recs generalizing blobs with
  -- on the records, with the blobs that the ones before have left
  | nil => simp [sentAll, FindsNoValue]
  | cons rec recs ih =>
      rw [sentAll, List.forall_mem_append, ih, FindsNoValue]
      refine and_congr_left fun _ => ?_
      unfold sentFor
      by_cases hphase : inPhase rec.revision = true
      · cases hkey : rec.key with
        | none => simp [hphase]
        | some key =>
            by_cases htakes : ctx.takes wants rec key = true <;> simp [hphase, htakes, recordEvent]
      · simp [hphase]

end

/-- No previous value was sent unless asked for. -/
def WatchContext.Unasked (ctx : WatchContext) : Prop :=
  ctx.pending.prevKv = false → ∀ e ∈ ctx.eventTx, e.prevKvBytes = []

/-- No previous value was sent unless asked for. -/
def WatchRegistration.Unasked (reg : WatchRegistration) : Prop :=
  reg.prevKv = false → ∀ e ∈ reg.sender, e.prevKvBytes = []

theorem WatchContext.Unasked.receive {ctx : WatchContext} (h : ctx.Unasked)
    {events : List WatchEvent}
    (hevents : ctx.pending.prevKv = false → ∀ e ∈ events, e.prevKvBytes = []) :
    (ctx.receive events).Unasked := by
  intro hprev e he
  rcases List.mem_append.mp he with he | he
  · exact h hprev e he
  · exact hevents hprev e he

section

variable [Crates]

/-- Live notification sends none. -/
theorem WatchRegistration.Unasked.notifyWrites {reg : WatchRegistration} (h : reg.Unasked)
    (ws : List Write) : (notifyWrites ws reg).Unasked := by
  rw [notifyWrites_spec]
  intro hprev e he
  have hasked : reg.prevKv = false := hprev
  rcases List.mem_append.mp he with he | he
  · exact h hprev e he
  · obtain ⟨e₀, -, rfl⟩ := List.mem_map.mp he
    rw [WatchRegistration.strip, hasked]
    rfl

/-- What phase 1 sends to a watcher that has not asked comes to keys without a value, when it reads
the first `n` bytes of the file. -/
def FlushStage.Phase1Unasked (checkpointRev : UInt64) (contents : Bytes) (n : Nat) :
    FlushStage → Prop
  | .scanning _ orphan active => ∀ ctx ∈ active, ctx.pending.prevKv = false →
      FindsNoValue (· ≤ checkpointRev) (fun ctx rev => rev ≥ ctx.pending.startRevision) ctx ∅
        (scanKvFile ((orphan.getD contents).take n) 0).1
  | _ => True

/-- The same of phase 2. -/
def FlushStage.Phase2Unasked (checkpointRev : UInt64) (contents : Bytes) (checkpointOffset : Nat) :
    FlushStage → Prop
  | .catchingUp st => ∀ ctx ∈ st.active, ctx.pending.prevKv = false →
      FindsNoValue (· > checkpointRev) (fun _ _ => true) ctx st.prevKvMap
        (scanKvFile contents checkpointOffset).1
  | _ => True

instance FlushStage.Phase1Unasked.decidable (checkpointRev : UInt64) (contents : Bytes) (n : Nat) :
    ∀ stage : FlushStage, Decidable (stage.Phase1Unasked checkpointRev contents n)
  | .scanning _ _ active => inferInstanceAs (Decidable (∀ ctx ∈ active, _ → _))
  | .drained _ | .admitting _ _ _ | .opening _ | .catchingUp _ | .replying _ => .isTrue trivial

instance FlushStage.Phase2Unasked.decidable (checkpointRev : UInt64) (contents : Bytes)
    (checkpointOffset : Nat) :
    ∀ stage : FlushStage, Decidable (stage.Phase2Unasked checkpointRev contents checkpointOffset)
  | .catchingUp st => inferInstanceAs (Decidable (∀ ctx ∈ st.active, _ → _))
  | .drained _ | .admitting _ _ _ | .opening _ | .scanning _ _ _ | .replying _ => .isTrue trivial

/-- What the phases replay to a watcher that has not asked comes to keys without a value. -/
def Handoff.StepUnasked (h : Handoff) : HandoffEvent → Prop
  | .phase1 n => ∀ f ∈ h.flush,
      f.stage.Phase1Unasked f.checkpointRev h.sys.store.wal.contents n
  | .phase2 => ∀ f ∈ h.flush,
      f.stage.Phase2Unasked f.checkpointRev h.sys.store.wal.contents f.checkpointOffset
  | _ => True

instance Handoff.StepUnasked.decidable (h : Handoff) : ∀ ev, Decidable (h.StepUnasked ev)
  | .phase1 _ | .phase2 => inferInstanceAs (Decidable (∀ f ∈ h.flush, _))
  | .server _ | .create _ | .checkpoint _ | .compactRev | .admission | .screen | .openWal
  | .reply => .isTrue trivial

/-- **One step sends no watcher a previous value** that it has not asked for, if the phases do not.
Live notification clears the field, so the condition is about the phases alone. -/
theorem unasked_step {h h' : Handoff} {ev : HandoffEvent}
    (hc : Channels WatchContext.Unasked WatchRegistration.Unasked h) (hunasked : h.StepUnasked ev)
    (hstep : h.step ev = some h') : Channels WatchContext.Unasked WatchRegistration.Unasked h' := by
  refine hc.step ?_ (fun ws reg hreg => hreg.notifyWrites ws) (fun ctx hctx => hctx) ?_ ?_ hstep
  · intro ctx hempty _ e he
    rw [hempty] at he
    cases he
  · intro n f opened orphan active hev hf hstage hactive ctx hctx
    subst hev
    have hnone := hunasked f hf
    rw [hstage] at hnone
    rw [flushPhase1, foldl_phase1Record_eq] at hctx
    obtain ⟨ctx₀, hctx₀, rfl⟩ := List.mem_map.mp hctx
    refine (hactive ctx₀ hctx₀).receive fun hprev => ?_
    exact prevKvBytes_sentAll.mpr (hnone ctx₀ hctx₀ hprev)
  · intro f st hev hf hstage hactive ctx hctx
    subst hev
    have hnone := hunasked f hf
    rw [hstage] at hnone
    rw [flushPhase2, foldl_phase2Record_eq] at hctx
    obtain ⟨ctx₀, hctx₀, rfl⟩ := List.mem_map.mp hctx
    refine (hactive ctx₀ hctx₀).receive fun hprev => ?_
    exact prevKvBytes_sentAll.mpr (hnone ctx₀ hctx₀ hprev)

/-! ### Watchers that have asked -/

/-- Is an event wanted, from a start revision on? -/
def WatchEvent.wantedFrom (start : UInt64) (bound : RangeBound) (filters : List Int32)
    (e : WatchEvent) : Bool :=
  start ≤ e.revision && e.wanted bound filters

/-- The watcher has been sent events of a run as they were built: what it wants from its start
revision on, except that between two points, its checkpoint and its registration, the start revision
does not count. -/
def WatchRegistration.Receives (events : List WatchEvent) (reg : WatchRegistration) : Prop :=
  ∃ before between since, events = before ++ between ++ since ∧
    reg.sender
      = before.filter (WatchEvent.wantedFrom reg.startRevision reg.bound reg.filters)
        ++ between.filter (WatchEvent.wanted reg.bound reg.filters)
        ++ since.filter (WatchEvent.wantedFrom reg.startRevision reg.bound reg.filters)

/-- Live notification sends a watcher that has asked the events as they are. -/
theorem notifyWrites_asked {reg : WatchRegistration} (hprev : reg.prevKv = true)
    (ws : List Write) :
    notifyWrites ws reg = { reg with
      sender := reg.sender ++ (ws.map Write.event).filter
        (WatchEvent.wantedFrom reg.startRevision reg.bound reg.filters) } := by
  have hstrip : reg.strip = id := by
    funext e
    rw [WatchRegistration.strip, if_pos hprev, id]
  have hsent : reg.isSent = WatchEvent.wantedFrom reg.startRevision reg.bound reg.filters := by
    funext e
    exact Bool.and_comm _ _
  rw [notifyWrites_spec, hstrip, hsent, List.map_id]

theorem prevKv_notifyWrites (ws : List Write) (reg : WatchRegistration) :
    (notifyWrites ws reg).prevKv = reg.prevKv := by
  rw [notifyWrites_spec]

/-- It goes on where the replay ended. -/
theorem WatchRegistration.Receives.notifyWrites {ws : List Write} {reg : WatchRegistration}
    (h : reg.prevKv = true → reg.Receives (ws.map Write.event)) (vs : List Write)
    (hprev : (notifyWrites vs reg).prevKv = true) :
    (notifyWrites vs reg).Receives ((ws ++ vs).map Write.event) := by
  rw [prevKv_notifyWrites] at hprev
  obtain ⟨before, between, since, hevents, hsender⟩ := h hprev
  rw [notifyWrites_asked hprev]
  refine ⟨before, between, since ++ vs.map Write.event, ?_, ?_⟩
  · rw [List.map_append, hevents, List.append_assoc _ since]
  · rw [List.filter_append, ← List.append_assoc, ← hsender]

section

variable [LawfulCrates] {inPhase : UInt64 → Bool} {wants : WatchContext → UInt64 → Bool}

/-- **A replay sends the events that were built.** -/
theorem sentAll_run {K K' : Keyspace} {ws : List Write} (hrun : Keyspace.Run K ws K')
    (hfits : ∀ w ∈ ws, w.record.Fits) (hpos : ∀ w ∈ ws, w.rev ≠ 0)
    (hin : ∀ w ∈ ws, inPhase w.rev = true) {blobs : ExtTreeMap Bytes Bytes} (hK : Coherent K)
    (hblobs : HoldsBlobs K blobs) :
    (∀ ctx, sentAll inPhase wants ctx blobs (ws.map Write.record)
      = (ws.map Write.event).filter fun e =>
          wants ctx e.revision && e.wanted ctx.bound ctx.pending.filters) ∧
    HoldsBlobs K' ((ws.map Write.record).foldl (nextBlobs inPhase) blobs) := by
  induction hrun generalizing blobs with
  | nil => exact ⟨fun _ => rfl, hblobs⟩
  | @cons K K' w ws hw _ ih =>
      have hfit := hfits w (by simp)
      have hnext := nextBlobs_record hblobs hw hfit (hpos w (by simp)) (hin w (by simp))
      -- the map agrees with the keyspace before a write, so the event gets its previous value
      obtain ⟨hsent, hlast⟩ := ih (fun v hv => hfits v (by simp [hv]))
        (fun v hv => hpos v (by simp [hv])) (fun v hv => hin v (by simp [hv])) (hK.apply hw) hnext
      refine ⟨?_, hlast⟩
      intro ctx
      rw [List.map_cons, sentAll, hsent, sentFor_record hK hblobs hw hfit (hin w (by simp)),
        List.map_cons, ← List.filter_append]
      rfl

end

/-! ### Runs -/

/-- Between the phases of a flush with this checkpoint, when the writes so far are `ws`. -/
structure ReplayState.Rebuilt (st : ReplayState) (checkpointRev : UInt64) (ws : List Write) :
    Prop where
  blobs : ∀ K, Keyspace.Run .empty (ws.filter (·.rev ≤ checkpointRev)) K →
    HoldsBlobs K st.prevKvMap
  active : ∀ ctx ∈ st.active, ctx.eventTx
    = ((ws.filter (·.rev ≤ checkpointRev)).map Write.event).filter
        (WatchEvent.wantedFrom ctx.pending.startRevision ctx.bound ctx.pending.filters)

/-- The writes so far are `ws`, the file holds them, and the watchers that asked for previous values
have been sent the events that were built for them. -/
structure Rebuilds (ws : List Write) (h : Handoff) : Prop where
  logged : Logged ws h.sys
  complete : Complete (ws.map Write.record) h
  accounted : Accounted h
  watchers : ∀ reg ∈ h.sys.store.watchers, reg.prevKv = true → reg.Receives (ws.map Write.event)
  flush : ∀ f st, h.flush = some f → f.stage = .catchingUp st → st.Rebuilt f.checkpointRev ws

/-- What an event of the server builds. -/
def Handoff.builtBy (h : Handoff) : HandoffEvent → List WatchEvent
  | .server ev => h.sys.builtBy ev
  | _ => []

/-- The events that a run builds. -/
def Handoff.built : Handoff → List HandoffEvent → List WatchEvent
  | _, [] => []
  | h, ev :: evs => h.builtBy ev ++ ((h.step ev).map fun h' => h'.built evs).getD []

omit [Crates] in
/-- Writes in order, divided at a revision. -/
theorem filter_append_filter {ws : List Write} (h : ws.Pairwise fun w v => w.rev ≤ v.rev)
    (rev : UInt64) : ws.filter (·.rev ≤ rev) ++ ws.filter (rev < ·.rev) = ws := by
  induction ws with
  | nil => rfl
  | cons w ws ih =>
      obtain ⟨hw, hws⟩ := List.pairwise_cons.mp h
      by_cases hle : w.rev ≤ rev
      · simp [hle, UInt64.not_lt.mpr hle, ih hws]
      · have hlt := UInt64.not_le.mp hle
        have hlater : ∀ v ∈ ws, rev < v.rev := fun v hv => UInt64.lt_of_lt_of_le hlt (hw v hv)
        have hnone : ws.filter (·.rev ≤ rev) = [] := by
          simpa [List.filter_eq_nil_iff] using hlater
        have hall : ws.filter (rev < ·.rev) = ws := by simpa [List.filter_eq_self] using hlater
        simp [hle, hlt, hnone, hall]

omit [Crates] in
/-- Records outside the phase do not count. -/
theorem foldl_nextBlobs_filter (inPhase : UInt64 → Bool) (recs : List KvWalRecord)
    (blobs : ExtTreeMap Bytes Bytes) :
    recs.foldl (nextBlobs inPhase) blobs
      = (recs.filter fun rec => inPhase rec.revision).foldl (nextBlobs inPhase) blobs := by
  induction recs generalizing blobs with
  | nil => rfl
  | cons rec recs ih =>
      by_cases hrev : inPhase rec.revision = true
      · rw [List.filter_cons_of_pos (by exact hrev), List.foldl_cons, List.foldl_cons, ih]
      · have hskip : nextBlobs inPhase blobs rec = blobs := by simp [nextBlobs, hrev]
        rw [List.filter_cons_of_neg (by exact hrev), List.foldl_cons, hskip, ih]

omit [Crates] in
theorem sentAll_filter (inPhase : UInt64 → Bool) (wants : WatchContext → UInt64 → Bool)
    (ctx : WatchContext) (recs : List KvWalRecord) (blobs : ExtTreeMap Bytes Bytes) :
    sentAll inPhase wants ctx blobs recs
      = sentAll inPhase wants ctx blobs (recs.filter fun rec => inPhase rec.revision) := by
  induction recs generalizing blobs with
  | nil => rfl
  | cons rec recs ih =>
      by_cases hrev : inPhase rec.revision = true
      · rw [List.filter_cons_of_pos (by exact hrev), sentAll, sentAll, ih]
      · have hskip : nextBlobs inPhase blobs rec = blobs := by simp [nextBlobs, hrev]
        have hnone : sentFor inPhase wants ctx blobs rec = [] := by simp [sentFor, hrev]
        rw [List.filter_cons_of_neg (by exact hrev), sentAll, hskip, hnone, List.nil_append, ih]

/-- Selecting records by revision is selecting writes. -/
theorem filter_map_record [LawfulCrates] {ws : List Write} (hfits : ∀ w ∈ ws, w.record.Fits)
    (p : UInt64 → Bool) :
    (ws.map Write.record).filter (fun rec => p rec.revision)
      = (ws.filter fun w => p w.rev).map Write.record := by
  rw [List.filter_map]
  refine congrArg _ (List.filter_congr fun w hw => ?_)
  rw [Function.comp_apply, (Write.record_spec (hfits w hw)).2.2]

omit [Crates] in
/-- The parts into which a flush divides the records. -/
theorem FlushRun.Divides.parts {f : FlushRun} {nextRev : UInt64}
    {recs before after : List KvWalRecord} (h : f.Divides nextRev recs before after) :
    before = recs.filter (·.revision ≤ f.checkpointRev) ∧
      after = recs.filter (f.checkpointRev < ·.revision) := by
  have hbefore : ∀ rec ∈ before, rec.revision ≤ f.checkpointRev := h.before_le
  have hafter : ∀ rec ∈ after, f.checkpointRev < rec.revision := h.lt_after
  have hkeep : before.filter (·.revision ≤ f.checkpointRev) = before := by
    simpa [List.filter_eq_self] using hbefore
  have hskip : after.filter (·.revision ≤ f.checkpointRev) = [] := by
    simpa [List.filter_eq_nil_iff] using hafter
  have hskip' : before.filter (f.checkpointRev < ·.revision) = [] := by
    simpa [List.filter_eq_nil_iff] using hbefore
  have hkeep' : after.filter (f.checkpointRev < ·.revision) = after := by
    simpa [List.filter_eq_self] using hafter
  rw [h.records, List.filter_append, List.filter_append, hkeep, hskip, hskip', hkeep',
    List.append_nil, List.nil_append]
  exact ⟨rfl, rfl⟩

section

variable [LawfulCrates] {ws : List Write} {h h' : Handoff}

omit [LawfulCrates] in
theorem rebuilds_start {sys : System} (hlogged : Logged ws sys)
    (hcomplete : Complete (ws.map Write.record) (.start sys)) (hw : sys.store.watchers = []) :
    Rebuilds ws (.start sys) where
  logged := hlogged
  complete := hcomplete
  accounted := accounted_start hlogged.faults hw
  watchers := by simp [Handoff.start, hw]
  flush := by simp [Handoff.start]

omit [LawfulCrates] in
/-- The file holds one list of records. -/
theorem Complete.eq_records {recs : List KvWalRecord} (hc : Complete recs h)
    (hlogged : Logged ws h.sys) [LawfulCrates] : recs = ws.map Write.record := by
  have hscan := scanKvFile_serializeAll hc.wellFormed
  rw [← hc.contents, hlogged.contents, scanKvFile_serializeAll (wellFormed_of_fits hlogged.fits)]
    at hscan
  exact (congrArg Prod.fst hscan).symm

omit [LawfulCrates] in
/-- The keyspace at the checkpoint of a flush. -/
theorem Rebuilds.keyspace_at (hr : Rebuilds ws h) (rev : UInt64) :
    ∃ K, Keyspace.Run .empty (ws.filter (·.rev ≤ rev)) K ∧
      Keyspace.Run K (ws.filter (rev < ·.rev)) h.sys.store.keyspace := by
  have hrun := hr.logged.run
  rw [← filter_append_filter hr.logged.sorted rev] at hrun
  exact hrun.of_append

omit [LawfulCrates] in
/-- Later writes are not part of what phase 1 replays. -/
theorem ReplayState.Rebuilt.append {st : ReplayState} {rev : UInt64} (hst : st.Rebuilt rev ws)
    {vs : List Write} (hlater : ∀ v ∈ vs, rev < v.rev) : st.Rebuilt rev (ws ++ vs) := by
  have hnone : vs.filter (·.rev ≤ rev) = [] := by
    simpa [List.filter_eq_nil_iff] using hlater
  have hsame : (ws ++ vs).filter (·.rev ≤ rev) = ws.filter (·.rev ≤ rev) := by
    rw [List.filter_append, hnone, List.append_nil]
  exact ⟨by rw [hsame]; exact hst.blobs, by rw [hsame]; exact hst.active⟩

/-- Phase 1 replays the writes up to the checkpoint. -/
theorem Rebuilds.phase1 (hr : Rebuilds ws h) {f : FlushRun} (hf : h.flush = some f)
    {opened n : Nat} {orphan : Option Bytes} {active : List WatchContext}
    (hstage : f.stage = .scanning opened orphan active) (hopened : opened ≤ n)
    (hn : n ≤ (orphan.getD h.sys.store.wal.contents).length) :
    (flushPhase1 ((orphan.getD h.sys.store.wal.contents).take n) f.checkpointRev active).Rebuilt
      f.checkpointRev ws := by
  obtain ⟨before, after, hdivides⟩ := hr.complete.flush f hf
  have hscanning := hdivides.stage
  rw [hstage] at hscanning
  obtain ⟨hoffset, rfl⟩ := hscanning
  rw [Option.getD_none] at hn ⊢
  have hle := hn
  rw [hr.complete.contents] at hle
  -- what is scanned up to the checkpoint is the part of the log before it, torn tail or not
  have hscan := hdivides.scan₁ hr.complete.wellFormed (Nat.le_trans hoffset hopened) hle
  rw [← hr.complete.contents, hdivides.parts.1,
    filter_map_record hr.logged.fits (· ≤ f.checkpointRev)] at hscan
  have hfits : ∀ w ∈ ws.filter (·.rev ≤ f.checkpointRev), w.record.Fits :=
    fun w hw => hr.logged.fits w (List.mem_filter.mp hw).1
  have hpos : ∀ w ∈ ws.filter (·.rev ≤ f.checkpointRev), w.rev ≠ 0 :=
    fun w hw => (hr.logged.below w (List.mem_filter.mp hw).1).1
  have hin : ∀ w ∈ ws.filter (·.rev ≤ f.checkpointRev), decide (w.rev ≤ f.checkpointRev) = true :=
    fun w hw => (List.mem_filter.mp hw).2
  have hblobs : HoldsBlobs .empty ∅ := by
    intro key
    simp [Keyspace.empty, aliveIn]
  rw [flushPhase1, foldl_phase1Record_eq]
  refine ⟨?_, ?_⟩
  · intro K hK
    have hlast := (@sentAll_run _ _ (· ≤ f.checkpointRev) (fun _ _ => true) _ _ _ hK hfits hpos
      hin _ coherent_empty hblobs).2
    rw [← hscan, ← foldl_nextBlobs_filter] at hlast
    exact hlast
  · intro ctx hctx
    obtain ⟨ctx₀, hctx₀, rfl⟩ := List.mem_map.mp hctx
    obtain ⟨K, hK, -⟩ := hr.keyspace_at f.checkpointRev
    have hsent := (@sentAll_run _ _ (· ≤ f.checkpointRev)
      (fun ctx rev => rev ≥ ctx.pending.startRevision) _ _ _ hK hfits hpos hin _ coherent_empty
      hblobs).1 ctx₀
    rw [← hscan, ← sentAll_filter] at hsent
    -- before phase 1 nothing has been sent
    have hempty := hr.accounted.flush f hf
    rw [FlushRun.Account, hstage] at hempty
    show ctx₀.eventTx ++ _ = _
    rw [(hempty ctx₀ hctx₀).1, List.nil_append]
    exact hsent

/-- Phase 2 replays the writes since, and the watchers are registered. -/
theorem Rebuilds.phase2 (hr : Rebuilds ws h) {f : FlushRun} (hf : h.flush = some f)
    {st : ReplayState} (hstage : f.stage = .catchingUp st) :
    ∀ ctx ∈ (flushPhase2 h.sys.store.wal.contents f.checkpointRev f.checkpointOffset st).active,
      ctx.registration.Receives (ws.map Write.event) := by
  obtain ⟨before, after, hdivides⟩ := hr.complete.flush f hf
  have hscan := hdivides.scan₂ hr.complete.wellFormed
  rw [← hr.complete.contents, hdivides.parts.2,
    filter_map_record hr.logged.fits (f.checkpointRev < ·)] at hscan
  obtain ⟨K, hK₁, hK₂⟩ := hr.keyspace_at f.checkpointRev
  have hrebuilt := hr.flush f st hf hstage
  intro ctx hctx
  rw [flushPhase2, foldl_phase2Record_eq] at hctx
  obtain ⟨ctx₀, hctx₀, rfl⟩ := List.mem_map.mp hctx
  have hsent := (@sentAll_run _ _ (· > f.checkpointRev) (fun _ _ => true) _ _ _ hK₂
    (fun w hw => hr.logged.fits w (List.mem_filter.mp hw).1)
    (fun w hw => (hr.logged.below w (List.mem_filter.mp hw).1).1)
    (fun w hw => (List.mem_filter.mp hw).2) _ (coherent_empty.run hK₁)
    (hrebuilt.blobs K hK₁)).1 ctx₀
  rw [← hscan] at hsent
  have hall : sentPhase2 f.checkpointRev ctx₀ st.prevKvMap
      (scanKvFile h.sys.store.wal.contents f.checkpointOffset).1 = _ :=
    (sentAll_filter _ _ _ _ _).trans hsent
  refine ⟨(ws.filter (·.rev ≤ f.checkpointRev)).map Write.event,
    (ws.filter (f.checkpointRev < ·.rev)).map Write.event, [], ?_, ?_⟩
  · rw [List.append_nil, ← List.map_append, filter_append_filter hr.logged.sorted]
  · show ctx₀.eventTx ++ _ = _
    rw [hrebuilt.active ctx₀ hctx₀, hall, List.filter_nil, List.append_nil]
    rfl

/-- **One step sends the events that were built.** For those that asked for previous values; the
others are the concern of the section before. -/
theorem Rebuilds.step (hr : Rebuilds ws h) {ev : HandoffEvent} (hok : h.StepOk ev)
    (hswap : ev ≠ .server .compactC) (hstep : h.step ev = some h') :
    ∃ vs, Rebuilds (ws ++ vs) h' ∧ h.builtBy ev = vs.map Write.event := by
  have hacc := hr.accounted.step hok hstep
  obtain ⟨recs, hcomplete⟩ := hr.complete.step hr.logged.faults hok hswap hstep
  -- most events write nothing, so that the log is what it was
  have hsame : Logged ws h'.sys → h.builtBy ev = [] →
      (∀ reg ∈ h'.sys.store.watchers, reg.prevKv = true → reg.Receives (ws.map Write.event)) →
      (∀ f st, h'.flush = some f → f.stage = .catchingUp st → st.Rebuilt f.checkpointRev ws) →
      ∃ vs, Rebuilds (ws ++ vs) h' ∧ h.builtBy ev = vs.map Write.event := by
    intro hlogged hbuilt hwatchers hflush
    rw [hcomplete.eq_records hlogged] at hcomplete
    exact ⟨[], by rw [List.append_nil]; exact ⟨hlogged, hcomplete, hacc, hwatchers, hflush⟩, hbuilt⟩
  cases Handoff.moves_of_step hr.logged.faults hstep with
  | @request q _ s' hq _ =>
      obtain ⟨vs, hpub, hbuilt⟩ := published_built hr.logged.faults hq
      have hfit := fits_of_stepFits hok.1 hq hpub.log
      have hlogged := hr.logged.served hpub.toServed hfit hok.2.2
      rw [hcomplete.eq_records hlogged] at hcomplete
      refine ⟨vs, ⟨hlogged, hcomplete, hacc, ?_, ?_⟩, hbuilt⟩
      · intro reg hreg hprev
        dsimp only at hreg
        rw [hpub.watchers] at hreg
        obtain ⟨reg₀, hreg₀, rfl⟩ := List.mem_map.mp hreg
        exact .notifyWrites (hr.watchers reg₀ hreg₀) vs hprev
      · intro f st hf hstage
        obtain ⟨before, after, hdivides⟩ := hr.complete.flush f hf
        refine (hr.flush f st hf hstage).append ?_
        intro v hv
        rw [hpub.rev_eq v hv, UInt64.lt_iff_toNat_lt]
        exact hdivides.checkpoint_lt
  | cancelWatch =>
      refine hsame (hr.logged.quiet (quiet_cancelWatcher _ _) _) rfl ?_ hr.flush
      intro reg hreg
      exact hr.watchers reg (List.mem_filter.mp hreg).1
  | compactA | compactB | compactFails =>
      exact hsame (hr.logged.quiet (.refl _) _) rfl hr.watchers hr.flush
  | compactC => exact absurd rfl hswap
  | restart hopen =>
      have hlogged := hr.logged.restart hopen
      obtain ⟨_, _, _, _, _, rfl⟩ := openStore_eq_ok hopen
      exact hsame hlogged rfl (fun reg hreg => by cases hreg) (by simp [Handoff.start])
  | create => exact hsame hr.logged rfl hr.watchers hr.flush
  | checkpoint | compactRev | refuse | admission | openWal =>
      refine hsame hr.logged rfl hr.watchers ?_
      intro f st hf hstage
      cases hf
      cases hstage
  | screen | reply =>
      refine hsame hr.logged rfl hr.watchers ?_
      intro f st hf hstage
      dsimp only at hf
      split at hf
      · cases hf
      · cases hf
        cases hstage
  | phase1 hf hstage hopened hn =>
      refine hsame hr.logged rfl hr.watchers ?_
      intro f' st hf' hstage'
      cases hf'
      cases hstage'
      exact hr.phase1 hf hstage hopened hn
  | @phase2 f st hf hstage =>
      refine hsame (hr.logged.quiet (quiet_registerAll _ h.sys.store) _) rfl ?_ ?_
      · intro reg hreg hprev
        dsimp only at hreg
        rw [watchers_registerAll] at hreg
        rcases List.mem_append.mp hreg with hreg | hreg
        · exact hr.watchers reg hreg hprev
        · obtain ⟨ctx, hctx, rfl⟩ := List.mem_map.mp hreg
          exact hr.phase2 hf hstage ctx hctx
      · intro f' st' hf' hstage'
        cases hf'
        cases hstage'

theorem Rebuilds.run {evs : List HandoffEvent} (hr : Rebuilds ws h)
    (hrun : h.run evs = some h') (hok : Trace.Along Handoff.step Handoff.StepOk h evs)
    (hswap : ∀ ev ∈ evs, ev ≠ .server .compactC) :
    ∃ vs, Rebuilds (ws ++ vs) h' ∧ h.built evs = vs.map Write.event := by
  induction evs generalizing h ws with
  | nil =>
      cases hrun
      exact ⟨[], by simpa using hr, rfl⟩
  | cons ev evs ih =>
      rw [Handoff.run, Trace.run_cons, Option.bind_eq_some_iff] at hrun
      obtain ⟨h₁, hstep, hrest⟩ := hrun
      obtain ⟨vs, hvs, hbuilt⟩ := hr.step hok.1 (hswap ev (by simp)) hstep
      obtain ⟨us, hus, hbuilt'⟩ := ih hvs hrest (hok.2 h₁ hstep)
        (fun ev' hev' => hswap ev' (by simp [hev']))
      refine ⟨vs ++ us, by simpa using hus, ?_⟩
      rw [Handoff.built, hstep, Option.map_some, Option.getD_some, hbuilt, hbuilt', List.map_append]

/-- Previous values are sent on request: none on the channel of a create or a watcher without
`prev_kv`, and with it those of the events that the run has built. For the latter records must fit
their format, and the file must not be replaced: a snapshot has no previous values. -/
structure OnRequest (evs : List HandoffEvent) (h : Handoff) : Prop where
  serving : ∀ f ∈ h.flush, ∀ ctx ∈ f.stage.serving, ctx.Unasked
  unasked : ∀ reg ∈ h.sys.store.watchers, reg.Unasked
  asked : Trace.Along Handoff.step Handoff.StepOk (.start ⟨fresh, none⟩) evs →
    (∀ ev ∈ evs, ev ≠ .server .compactC) → ∀ reg ∈ h.sys.store.watchers, reg.prevKv = true →
      reg.Receives ((Handoff.start ⟨fresh, none⟩).built evs)

/-- **Previous values are sent on request**, in every run in which what the phases replay to a
watcher that has not asked comes to keys without a value. -/
theorem prevKv_on_request {evs : List HandoffEvent}
    (hrun : (Handoff.start ⟨fresh, none⟩).run evs = some h)
    (hunasked : Trace.Along Handoff.step Handoff.StepUnasked (.start ⟨fresh, none⟩) evs) :
    OnRequest evs h := by
  have hchannels : Channels WatchContext.Unasked WatchRegistration.Unasked h :=
    Trace.invariant (fun _ _ _ hc hev hstep => unasked_step hc hev hstep) (channels_start rfl rfl)
      hunasked hrun
  refine ⟨hchannels.flush, hchannels.watchers, ?_⟩
  -- with `prev_kv` asked for, it is enough that what a watcher is sent is rebuilt from the writes
  intro hok hswap reg hreg hprev
  have hcomplete : Complete (([] : List Write).map Write.record) (.start ⟨fresh, none⟩) :=
    complete_start (by simp) (by simp) (openStore_nil 0)
  have hstart : Rebuilds [] (.start ⟨fresh, none⟩) := rebuilds_start logged_fresh hcomplete rfl
  obtain ⟨ws, hws, hbuilt⟩ := hstart.run hrun hok hswap
  rw [hbuilt]
  exact hws.watchers reg hreg hprev

end

end

/-- A watcher of one key with `prev_kv` and a watcher of another without, served by one flush: what
is replayed to the second is the creation of its key. -/
def askedAndNot : List HandoffEvent :=
  [.server (.request (.put { key := [1], value := [1] })),
    .create { key := [1], startRevision := 1, prevKv := true },
    .create { key := [2], startRevision := 1 }, .checkpoint 2,
    .server (.request (.put { key := [1], value := [2] })),
    .server (.request (.put { key := [2], value := [3] })), .compactRev, .admission, .admission,
    .screen, .openWal, .phase1 132, .phase2, .reply, .reply,
    .server (.request (.put { key := [2], value := [4] }))]

theorem prevKv_on_request_both :
    ∃ h, (Handoff.start ⟨fresh, none⟩).run askedAndNot = some h ∧ OnRequest askedAndNot h ∧
      h.sys.store.watchers.map (fun reg => reg.sender.map (·.prevKvBytes.isEmpty))
        = [[true, false], [true, true]] := by
  have hrun : (decide (Trace.Along Handoff.step Handoff.StepUnasked (.start ⟨fresh, none⟩)
      askedAndNot) &&
      ((Handoff.start ⟨fresh, none⟩).run askedAndNot).any fun h =>
        decide (h.sys.store.watchers.map (fun reg => reg.sender.map (·.prevKvBytes.isEmpty))
          = [[true, false], [true, true]])) = true := by
    decide +kernel
  obtain ⟨hunasked, hfacts⟩ := (Bool.and_eq_true _ _).mp hrun
  obtain ⟨h, hh, hsent⟩ := (Option.any_eq_true _ _).mp hfacts
  exact ⟨h, hh, prevKv_on_request hh (of_decide_eq_true hunasked), of_decide_eq_true hsent⟩

/-- An update is replayed with the previous value to a watcher that has not asked for it. -/
theorem replay_sends_prevKv :
    ∃ h, (Handoff.start ⟨fresh, none⟩).run
        [.server (.request (.put { key := [1], value := [1] })),
          .server (.request (.put { key := [1], value := [2] })),
          .create { key := [1], startRevision := 1 }, .checkpoint 1, .compactRev, .admission,
          .screen, .openWal, .phase1 88, .phase2, .reply] = some h ∧
      ∃ reg ∈ h.sys.store.watchers, reg.prevKv = false ∧ ∃ e ∈ reg.sender, e.prevKvBytes ≠ [] := by
  have hrun : (((Handoff.start ⟨fresh, none⟩).run
      [.server (.request (.put { key := [1], value := [1] })),
        .server (.request (.put { key := [1], value := [2] })),
        .create { key := [1], startRevision := 1 }, .checkpoint 1, .compactRev, .admission,
        .screen, .openWal, .phase1 88, .phase2, .reply]).any fun h =>
      h.sys.store.watchers.any fun reg =>
        decide (reg.prevKv = false ∧ ∃ e ∈ reg.sender, e.prevKvBytes ≠ [])) = true := by
    decide +kernel
  obtain ⟨h, hh, hreg⟩ := (Option.any_eq_true _ _).mp hrun
  obtain ⟨reg, hmem, hfacts⟩ := List.any_eq_true.mp hreg
  exact ⟨h, hh, reg, hmem, of_decide_eq_true hfacts⟩

end Rudurru
