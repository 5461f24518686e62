import Rudurru.Server.WatchIds

/-!
# Rudurru.Server.Batching

A flush serves every create of its batch as if the create were alone.

One scan feeds all watchers of the batch, and one map of blobs goes past them. The map follows the
records and nothing else, and a watcher takes from a record what its own start revision, range and
filters say (`flushPhases_eq`). So creates can get in each other's way over watch ids only: a
batch of distinct ids that are free is served as its creates one by one (`batching_transparent`).
The flush is taken as a whole here, which is what its steps come to when no other event comes
between them (`run_flushEvents`).

Three things could let one create see another: the map of blobs, the list of watchers, and the order
of the replies. The map is the same for all, since it follows the records. The list matters to ids
only. The order of the replies is that of the batch, up to what screening does to it, and a batch
without clashes is not reordered.
-/

namespace Rudurru

section

variable [Crates]

/-- What the two phases of a flush send a watcher. -/
def flushSent (file : Bytes) (checkpointRev : UInt64) (checkpointOffset : Nat)
    (ctx : WatchContext) : List WatchEvent :=
  let recs := (scanKvFile file 0).1
  sentPhase1 checkpointRev ctx ∅ recs
    ++ sentPhase2 checkpointRev ctx (recs.foldl (nextBlobs (· ≤ checkpointRev)) ∅)
        (scanKvFile file checkpointOffset).1

/-- **One replay for all serves every watcher on its own.** -/
theorem flushPhases_eq (file : Bytes) (checkpointRev : UInt64) (checkpointOffset : Nat)
    (active : List WatchContext) :
    (flushPhase2 file checkpointRev checkpointOffset
      (flushPhase1 file checkpointRev active)).active
        = active.map fun ctx =>
            ctx.receive (flushSent file checkpointRev checkpointOffset ctx) := by
  rw [flushPhase2, flushPhase1, foldl_phase1Record_eq, foldl_phase2Record_eq, List.map_map]
  simp [Function.comp_def, flushSent]

/-! ### A whole flush -/

/-- `flush_global_batch_at` with nothing else running: the replies, and the store with the new
watchers. A watcher carries what was sent to it. -/
def flushGlobalBatchAt (s : StoreState) (batch : List GlobalCreate) (checkpointRev : UInt64)
    (checkpointOffset : Nat) : List (Nat × WatchResponse) × StoreState :=
  let flush := flushAdmit s batch
  let st := flushPhase1 s.wal.contents checkpointRev flush.active
  let st := flushPhase2 s.wal.contents checkpointRev checkpointOffset st
  let s := st.active.foldl (fun s ctx => s.registerWatcher ctx.registration) s
  (flush.replies ++ st.active.map fun ctx => (ctx.reply, createdResponse s ctx), s)

/-- `flush_global_batch` takes the checkpoint. -/
theorem flushGlobalBatch_eq (s : StoreState) (batch : List GlobalCreate) :
    flushGlobalBatch s batch
      = flushGlobalBatchAt s batch (currentCheckpoint s).1 (currentCheckpoint s).2 := rfl

omit [Crates] in
/-- Distinct ids that no registered watcher has are not screened out. -/
theorem duplicateIds_eq_nil {s : StoreState} {active : List WatchContext}
    (hids : (active.map (·.watchId)).Nodup)
    (hfree : ∀ ctx ∈ active, ∀ w ∈ s.watchers, w.watchId ≠ ctx.watchId) :
    duplicateIds s active = [] := by
  rw [List.eq_nil_iff_forall_not_mem]
  intro i hi
  obtain ⟨ctx, hctx, htaken⟩ := mem_duplicateIds.mp hi
  rcases htaken with ⟨w, hw, heq⟩ | ⟨other, hother, heq⟩
  · exact hfree ctx (List.mem_of_getElem? hctx) w hw heq
  · obtain ⟨j, hj, hget⟩ := List.mem_take_iff_getElem.mp hother
    obtain ⟨hi', rfl⟩ := List.getElem?_eq_some_iff.mp hctx
    have hlt : i < (active.map (·.watchId)).length := by simpa using hi'
    have hlt' : j < (active.map (·.watchId)).length := by omega
    have hsame : (active.map (·.watchId))[j] = (active.map (·.watchId))[i] := by
      simpa [hget] using heq
    have := hids.getElem_inj_iff.mp hsame
    omega

/-- The watchers that a flush registers. -/
def newWatchersAt (s : StoreState) (batch : List GlobalCreate) (checkpointRev : UInt64)
    (checkpointOffset : Nat) : List WatchRegistration :=
  (flushGlobalBatchAt s batch checkpointRev checkpointOffset).2.watchers.drop s.watchers.length

/-- The reply to a create whose id is free. -/
def replyTo (s : StoreState) (c : GlobalCreate) : WatchResponse :=
  match admitCreate s c with
  | .error resp => resp
  | .ok ctx => createdResponse s ctx

/-- The watcher of such a create. -/
def watcherOf (s : StoreState) (checkpointRev : UInt64) (checkpointOffset : Nat)
    (c : GlobalCreate) : Option WatchRegistration :=
  (admitCreate s c).toOption.map fun ctx =>
    (ctx.receive (flushSent s.wal.contents checkpointRev checkpointOffset ctx)).registration

omit [Crates] in
/-- Some creates are refused at once and the rest answered at the end: every one is. -/
theorem replies_perm (s : StoreState) (batch : List GlobalCreate) :
    ((batch.filterMap fun c =>
        match admitCreate s c with
        | .error resp => some (c.reply, resp)
        | .ok _ => none)
      ++ (batch.filterMap fun c => (admitCreate s c).toOption).map fun ctx =>
        (ctx.reply, createdResponse s ctx)).Perm (batch.map fun c => (c.reply, replyTo s c)) := by
  induction batch with
  | nil => exact .nil
  | cons c batch ih =>
      cases hentered : admitCreate s c with
      | error resp =>
          simp only [List.filterMap_cons, List.map_cons, hentered, replyTo, Except.toOption]
          exact ih.cons _
      | ok ctx =>
          have hreply : ctx.reply = c.reply := congrArg Prod.fst (entry_of_admitCreate hentered)
          simp only [List.filterMap_cons, List.map_cons, hentered, replyTo, Except.toOption, hreply]
          exact List.perm_middle.trans (ih.cons _)

omit [Crates] in
/-- A batch of distinct free ids loses nothing to screening. -/
theorem flushAdmit_eq {s : StoreState} {batch : List GlobalCreate}
    (hids : (batch.map (·.watchId)).Nodup)
    (hfree : ∀ c ∈ batch, ∀ w ∈ s.watchers, w.watchId ≠ c.watchId) :
    flushAdmit s batch =
      { active := batch.filterMap fun c => (admitCreate s c).toOption
        replies := batch.filterMap fun c =>
          match admitCreate s c with
          | .error resp => some (c.reply, resp)
          | .ok _ => none } := by
  have hid : ∀ c ctx, (admitCreate s c).toOption = some ctx → ctx.watchId = c.watchId := by
    intro c ctx hctx
    exact congrArg Prod.snd (entry_of_admitCreate (Prog.ok_of_toOption hctx))
  have hnone : duplicateIds s (batch.filterMap fun c => (admitCreate s c).toOption) = [] := by
    refine duplicateIds_eq_nil ?_ ?_
    · rw [List.map_filterMap, List.Nodup, List.pairwise_filterMap]
      refine (List.pairwise_map.mp hids).imp ?_
      intro c c' hne id hc id' hc' heq
      obtain ⟨ctx, hctx, rfl⟩ := Option.map_eq_some_iff.mp hc
      obtain ⟨ctx', hctx', rfl⟩ := Option.map_eq_some_iff.mp hc'
      rw [hid c ctx hctx, hid c' ctx' hctx'] at heq
      exact hne heq
    · intro ctx hctx w hw
      obtain ⟨c, hc, hentered⟩ := List.mem_filterMap.mp hctx
      rw [hid c ctx hentered]
      exact hfree c hc w hw
  unfold flushAdmit
  dsimp only
  rw [hnone]
  exact congrArg (Flush.mk _) (List.append_nil _)

omit [Crates] in
/-- Registering changes nothing but the watchers. -/
theorem registerAll_eq (ctxs : List WatchContext) (s : StoreState) :
    ctxs.foldl (fun s ctx => s.registerWatcher ctx.registration) s
      = { s with watchers := s.watchers ++ ctxs.map WatchContext.registration } := by
  induction ctxs generalizing s with
  | nil => simp
  | cons ctx ctxs ih =>
      rw [List.foldl_cons, ih]
      simp [StoreState.registerWatcher]

/-- What a flush of distinct free ids comes to. -/
theorem flushGlobalBatchAt_eq {s : StoreState} {batch : List GlobalCreate}
    (hids : (batch.map (·.watchId)).Nodup)
    (hfree : ∀ c ∈ batch, ∀ w ∈ s.watchers, w.watchId ≠ c.watchId) (checkpointRev : UInt64)
    (checkpointOffset : Nat) :
    (flushGlobalBatchAt s batch checkpointRev checkpointOffset).1.Perm
      (batch.map fun c => (c.reply, replyTo s c)) ∧
    (flushGlobalBatchAt s batch checkpointRev checkpointOffset).2
      = { s with
          watchers := s.watchers
            ++ batch.filterMap (watcherOf s checkpointRev checkpointOffset) } := by
  unfold flushGlobalBatchAt
  dsimp only
  rw [flushAdmit_eq hids hfree, flushPhases_eq, registerAll_eq, List.map_map, List.map_map]
  refine ⟨replies_perm s batch, ?_⟩
  rw [List.map_filterMap]
  rfl

/-! ### Step by step -/

open Handoff in
/-- The admissions of a flush, one after the other. -/
theorem run_admissions {compactRev : UInt64} (batch : List GlobalCreate) :
    ∀ {h : Handoff} {f : FlushRun} {active : List WatchContext},
      h.flush = some { f with stage := .admitting compactRev batch active } →
      h.run (List.replicate batch.length .admission) = some { h with
        replies := h.replies ++ batch.filterMap fun c =>
          match admitCreate { h.sys.store with compactRev } c with
          | .error resp => some (c.reply, resp)
          | .ok _ => none
        flush := some { f with
          stage := .admitting compactRev [] (active ++ batch.filterMap fun c =>
            (admitCreate { h.sys.store with compactRev } c).toOption) } } := by
  -- one admission a step, with the active creates so far
  induction batch with
  | nil =>
      intro h f active hf
      simp [Handoff.run, ← hf]
  | cons c batch ih =>
      intro h f active hf
      rw [List.length_cons, List.replicate_succ, Handoff.run, Trace.run_cons]
      cases hentered : admitCreate { h.sys.store with compactRev } c with
      | error resp =>
          have hstep : h.step .admission = some { h with
              replies := h.replies ++ [(c.reply, resp)]
              flush := some { f with stage := .admitting compactRev batch active } } := by
            simp [Handoff.step, Handoff.flushStep, hf, hentered]
          rw [hstep, Option.bind_some]
          refine (ih rfl).trans ?_
          simp [hentered, Except.toOption]
      | ok ctx =>
          have hstep : h.step .admission = some { h with
              flush := some
                { f with stage := .admitting compactRev batch (active ++ [ctx]) } } := by
            simp [Handoff.step, Handoff.flushStep, hf, hentered]
          rw [hstep, Option.bind_some]
          refine (ih rfl).trans ?_
          simp [hentered, Except.toOption]

/-- Its answers. -/
theorem run_replies (active : List WatchContext) :
    ∀ {h : Handoff} {f : FlushRun} {ctx : WatchContext},
      h.flush = some { f with stage := .replying (ctx :: active) } →
      h.run (List.replicate (ctx :: active).length .reply) = some { h with
        replies := h.replies ++ (ctx :: active).map fun ctx =>
          (ctx.reply, createdResponse h.sys.store ctx)
        flush := none } := by
  induction active with
  | nil =>
      intro h f ctx hf
      simp [Handoff.run, Handoff.step, Handoff.flushStep, hf]
  | cons next active ih =>
      intro h f ctx hf
      have hstep : h.step .reply = some { h with
          replies := h.replies ++ [(ctx.reply, createdResponse h.sys.store ctx)]
          flush := some { f with stage := .replying (next :: active) } } := by
        simp [Handoff.step, Handoff.flushStep, hf]
      rw [List.length_cons, List.replicate_succ, Handoff.run, Trace.run_cons, hstep,
        Option.bind_some]
      refine (ih rfl).trans ?_
      simp

open HandoffEvent in
/-- The events of a flush of `n` creates, up to the screening. -/
def screeningEvents (n : Nat) : List HandoffEvent :=
  [checkpoint n, compactRev] ++ List.replicate n admission ++ [screen]

open HandoffEvent in
/-- Those that serve what is left, from a file of `len` bytes. -/
def servingEvents (len served : Nat) : List HandoffEvent :=
  [openWal, phase1 len, phase2] ++ List.replicate served reply

/-- The events of a flush that nothing comes between. -/
def flushEvents (s : StoreState) (batch : List GlobalCreate) : List HandoffEvent :=
  let active := (flushAdmit s batch).active
  screeningEvents batch.length ++
    if active = [] then [] else servingEvents s.wal.contents.length active.length

omit [Crates] in
/-- What the first loop and the screening leave of a batch. -/
theorem flushAdmit_screened (s : StoreState) (batch : List GlobalCreate) :
    (screenDuplicates s (batch.filterMap fun c => (admitCreate s c).toOption)).active
        = (flushAdmit s batch).active ∧
      (batch.filterMap fun c =>
          match admitCreate s c with
          | .error resp => some (c.reply, resp)
          | .ok _ => none)
        ++ (screenDuplicates s (batch.filterMap fun c => (admitCreate s c).toOption)).replies
        = (flushAdmit s batch).replies := ⟨rfl, rfl⟩

/-- A flush that has taken its checkpoint. -/
def StoreState.drains (s : StoreState) (batch : List GlobalCreate) : FlushRun :=
  { checkpointRev := (currentCheckpoint s).1
    checkpointOffset := (currentCheckpoint s).2
    stage := .drained batch
    position := s.wal.log.length
    swapped := false
    scanned := [] }

/-- A flush that is left alone, up to the screening. -/
theorem run_screened {h : Handoff} {batch rest : List GlobalCreate} (hflush : h.flush = none)
    (hqueue : h.queue = batch ++ rest) (hne : batch ≠ []) :
    h.run (screeningEvents batch.length) = some { h with
      queue := rest
      replies := h.replies ++ (flushAdmit h.sys.store batch).replies
      flush := if (flushAdmit h.sys.store batch).active = [] then none
        else some { h.sys.store.drains batch with
          stage := .opening (flushAdmit h.sys.store batch).active } } := by
  have hpos : 0 < batch.length := List.length_pos_iff.mpr hne
  have hstart : h.run [.checkpoint batch.length, .compactRev] = some { h with
      queue := rest
      flush := some { h.sys.store.drains batch with
        stage := .admitting h.sys.store.compactRev batch [] } } := by
    simp [Handoff.run, Handoff.step, Handoff.flushStep, StoreState.drains, hflush, hqueue, hpos]
  have hadmitted := Trace.run_append_eq_some.mpr
    ⟨_, hstart, run_admissions (f := h.sys.store.drains batch) batch rfl⟩
  refine Trace.run_append_eq_some.mpr ⟨_, hadmitted, ?_⟩
  obtain ⟨hactive, hreplies⟩ := flushAdmit_screened h.sys.store batch
  rw [Trace.run_singleton]
  simp only [Handoff.step, Handoff.flushStep, Option.bind_some, List.nil_append]
  rw [List.append_assoc, hactive, hreplies]

/-- From there on. -/
theorem run_served {h : Handoff} {f : FlushRun} {active : List WatchContext}
    (hf : h.flush = some { f with stage := .opening active }) (hne : active ≠ [])
    {served : List WatchContext}
    (hserved : served = (flushPhase2 h.sys.store.wal.contents f.checkpointRev f.checkpointOffset
      (flushPhase1 h.sys.store.wal.contents f.checkpointRev active)).active)
    {store : StoreState} (hstore : store = served.foldl
      (fun s ctx => s.registerWatcher ctx.registration) h.sys.store) :
    ∃ origins,
      h.run (servingEvents h.sys.store.wal.contents.length active.length) = some { h with
        sys := { h.sys with store }
        replies := h.replies ++ served.map fun ctx => (ctx.reply, createdResponse store ctx)
        flush := none
        origins } := by
  have hlen : served.length = active.length := by
    rw [hserved, flushPhases_eq, List.length_map]
  have hphases : ∃ origins,
      h.run [.openWal, .phase1 h.sys.store.wal.contents.length, .phase2] = some { h with
        sys := { h.sys with store }
        flush := some { f with
          stage := .replying served, scanned := (scanKvFile h.sys.store.wal.contents 0).1 }
        origins } := by
    simp [Handoff.run, Handoff.step, Handoff.flushStep, hf, hstore, hserved]
  obtain ⟨origins, hphases⟩ := hphases
  refine ⟨origins, Trace.run_append_eq_some.mpr ⟨_, hphases, ?_⟩⟩
  cases served with
  | nil => exact absurd (List.eq_nil_of_length_eq_zero hlen.symm) hne
  -- `reply` answers the first of those left, and the last answer ends the flush
  | cons ctx rest =>
      rw [← hlen]
      exact run_replies (f := { f with scanned := (scanKvFile h.sys.store.wal.contents 0).1 })
        rest rfl

/-- **A flush that nothing comes between is `flush_global_batch`.** -/
theorem run_flushEvents {h : Handoff} {batch rest : List GlobalCreate} (hflush : h.flush = none)
    (hqueue : h.queue = batch ++ rest) (hne : batch ≠ []) :
    ∃ origins, h.run (flushEvents h.sys.store batch) = some { h with
      sys := { h.sys with store := (flushGlobalBatch h.sys.store batch).2 }
      queue := rest
      replies := h.replies ++ (flushGlobalBatch h.sys.store batch).1
      origins } := by
  have hscreened := run_screened hflush hqueue hne
  by_cases hactive : (flushAdmit h.sys.store batch).active = []
  · rw [if_pos hactive] at hscreened
    refine ⟨h.origins, ?_⟩
    -- nothing is left to serve: the flush ends without reading the WAL
    have hnone : flushGlobalBatch h.sys.store batch
        = ((flushAdmit h.sys.store batch).replies, h.sys.store) := by
      rw [flushGlobalBatch_eq, flushGlobalBatchAt]
      simp only [flushPhases_eq, hactive]
      simp
    rw [flushEvents, hactive, hnone]
    simpa [hflush] using hscreened
  · rw [if_neg hactive] at hscreened
    obtain ⟨origins, hserved⟩ := run_served (h := { h with
      queue := rest
      replies := h.replies ++ (flushAdmit h.sys.store batch).replies
      flush := some { h.sys.store.drains batch with
        stage := .opening (flushAdmit h.sys.store batch).active } })
      (f := h.sys.store.drains batch) rfl hactive rfl rfl
    refine ⟨origins, ?_⟩
    rw [flushEvents]
    dsimp only
    rw [if_neg hactive]
    refine (Trace.run_append_eq_some.mpr ⟨_, hscreened, hserved⟩).trans ?_
    simp [flushGlobalBatch_eq, flushGlobalBatchAt, hflush, StoreState.drains]

/-- The flush of a batch is the flushes of its creates, one by one. -/
structure SideBySide (s : StoreState) (batch : List GlobalCreate) (checkpointRev : UInt64)
    (checkpointOffset : Nat) : Prop where
  /-- A create alone is answered once. -/
  answered : ∀ c ∈ batch, ∃ resp,
    (flushGlobalBatchAt s [c] checkpointRev checkpointOffset).1 = [(c.reply, resp)]
  replies : (flushGlobalBatchAt s batch checkpointRev checkpointOffset).1.Perm
    (batch.flatMap fun c => (flushGlobalBatchAt s [c] checkpointRev checkpointOffset).1)
  /-- A watcher carries what was sent to it. -/
  store : (flushGlobalBatchAt s batch checkpointRev checkpointOffset).2
    = { s with
        watchers := s.watchers
          ++ batch.flatMap fun c => newWatchersAt s [c] checkpointRev checkpointOffset }

/-- **Batching is transparent.** -/
theorem batching_transparent (s : StoreState) {batch : List GlobalCreate}
    (hids : (batch.map (·.watchId)).Nodup)
    (hfree : ∀ c ∈ batch, ∀ w ∈ s.watchers, w.watchId ≠ c.watchId) (checkpointRev : UInt64)
    (checkpointOffset : Nat) : SideBySide s batch checkpointRev checkpointOffset := by
  have halone : ∀ c ∈ batch,
      (flushGlobalBatchAt s [c] checkpointRev checkpointOffset).1 = [(c.reply, replyTo s c)] ∧
      newWatchersAt s [c] checkpointRev checkpointOffset
        = (watcherOf s checkpointRev checkpointOffset c).toList := by
    intro c hc
    have hid : ([c].map (·.watchId)).Nodup := by simp
    obtain ⟨hreplies, hstore⟩ := flushGlobalBatchAt_eq hid (by simpa using hfree c hc)
      checkpointRev checkpointOffset
    refine ⟨List.perm_singleton.mp hreplies, ?_⟩
    rw [newWatchersAt, hstore, List.drop_left]
    cases hc' : watcherOf s checkpointRev checkpointOffset c <;> simp [hc']
  -- a batch of one is a batch too, so both sides come from the same equation
  obtain ⟨hreplies, hstore⟩ := flushGlobalBatchAt_eq hids hfree checkpointRev checkpointOffset
  refine ⟨fun c hc => ⟨_, (halone c hc).1⟩, ?_, ?_⟩
  · refine hreplies.trans (.of_eq ?_)
    rw [List.flatMap_congr fun c hc => (halone c hc).1, List.map_eq_flatMap]
  · rw [hstore, List.flatMap_congr fun c hc => (halone c hc).2]
    simp [List.filterMap_eq_flatMap_toList]

end

/-- With a watcher registered: a create from the start, one of all keys and one too far ahead. -/
theorem batching_transparent_three :
    ∃ sys, System.run ⟨fresh, none⟩ [.request (.put { key := [1] }),
        .watch [⟨{ key := [1], startRevision := 1 }, 0, 1⟩],
        .request (.put { key := [1], value := [2] })] = some sys ∧
      SideBySide sys.store
        [⟨{ key := [1], startRevision := 1 }, 1, 2⟩,
          ⟨{ key := [0], rangeEnd := [0], startRevision := 2 }, 2, 3⟩,
          ⟨{ key := [1], startRevision := 20000 }, 3, 4⟩] 1 40 := by
  have hrun : (System.run ⟨fresh, none⟩ [.request (.put { key := [1] }),
      .watch [⟨{ key := [1], startRevision := 1 }, 0, 1⟩],
      .request (.put { key := [1], value := [2] })]).any (fun sys =>
        decide (sys.store.watchers.map (·.watchId) = [1])) = true := by
    decide +kernel
  obtain ⟨sys, hsys, hwatchers⟩ := (Option.any_eq_true _ _).mp hrun
  refine ⟨sys, hsys, batching_transparent sys.store (by decide) ?_ 1 40⟩
  intro c hc w hw
  have hid : w.watchId ∈ sys.store.watchers.map (·.watchId) := List.mem_map_of_mem hw
  rw [of_decide_eq_true hwatchers, List.mem_singleton] at hid
  rw [hid]
  revert c
  decide

end Rudurru
