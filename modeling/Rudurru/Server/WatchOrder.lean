import Rudurru.Server.HandoffSound

/-!
# Rudurru.Server.WatchOrder

In which order a watcher gets its events.

Replay order is file order. Appends keep a file ascending in revision, since a request writes at
the next one; a compaction rewrites the file in key order, and keeps it ascending only where the
alive keys were last written in that order (`events_in_order`, `compaction_reorders_events`).

Order is a matter of records again. `Ordered` keeps the file ascending, and the file that a
compaction is preparing; `Ascends` keeps the records behind each watcher ascending, which
`Server.HandoffSound` turns into the order of its events. A flush reads the file twice, so its two
parts must fit: what phase 2 finds lies beyond the checkpoint, what phase 1 found does not.
-/

namespace Rudurru

/-! ### Ascending records -/

/-- The revisions do not decrease, and stay below the next one. -/
structure Ascending (recs : List KvWalRecord) (nextRev : UInt64) : Prop where
  sorted : recs.Pairwise fun rec rec' => rec.revision ≤ rec'.revision
  lt : ∀ rec ∈ recs, rec.revision.toNat < nextRev.toNat

theorem Ascending.nil (nextRev : UInt64) : Ascending [] nextRev := ⟨.nil, by simp⟩

theorem Ascending.sublist {recs recs' : List KvWalRecord} {nextRev : UInt64}
    (h : Ascending recs nextRev) (hsub : recs'.Sublist recs) : Ascending recs' nextRev :=
  ⟨h.sorted.sublist hsub, fun rec hrec => h.lt rec (hsub.subset hrec)⟩

theorem Ascending.mono {recs : List KvWalRecord} {nextRev nextRev' : UInt64}
    (h : Ascending recs nextRev) (hle : nextRev.toNat ≤ nextRev'.toNat) :
    Ascending recs nextRev' :=
  ⟨h.sorted, fun rec hrec => Nat.lt_of_lt_of_le (h.lt rec hrec) hle⟩

/-- The changes a watcher wants of ascending records ascend. -/
theorem Ascending.changesFor {recs : List KvWalRecord} {nextRev : UInt64}
    (h : Ascending recs nextRev) (bound : RangeBound) (filters : List Int32) :
    (changesFor bound filters recs).Pairwise fun c c' => c.revision ≤ c'.revision := by
  refine List.Pairwise.filter _ (List.pairwise_filterMap.mpr (h.sorted.imp ?_))
  intro rec rec' hle c hc c' hc'
  obtain ⟨key, -, rfl⟩ := Option.map_eq_some_iff.mp hc
  obtain ⟨key', -, rfl⟩ := Option.map_eq_some_iff.mp hc'
  exact hle

section

variable [Crates] [LawfulCrates]

/-- A request appends at the next revision. -/
theorem Ascending.served {recs : List KvWalRecord} {s s' : StoreState} {ws : List Write}
    (h : Ascending recs s.nextRev) (hserved : Served s ws s') (hfit : ∀ w ∈ ws, w.record.Fits)
    (hcounts : s.nextRev.toNat + 1 < 2 ^ 64) :
    Ascending (recs ++ ws.map Write.record) s'.nextRev := by
  obtain ⟨hle, -, hnew⟩ := hserved.toNat_nextRev hcounts
  have hrev : ∀ rec ∈ ws.map Write.record,
      rec.revision = s.nextRev ∧ s'.nextRev.toNat = s.nextRev.toNat + 1 := by
    intro rec hrec
    obtain ⟨w, hw, rfl⟩ := List.mem_map.mp hrec
    rw [(Write.record_spec (hfit w hw)).2.2, hserved.rev_eq w hw]
    exact ⟨rfl, (hnew w hw).2⟩
  refine ⟨List.pairwise_append.mpr ⟨h.sorted, ?_, ?_⟩, ?_⟩
  · refine List.pairwise_of_forall_mem_list ?_
    intro rec hrec rec' hrec'
    rw [(hrev rec hrec).1, (hrev rec' hrec').1]
    exact UInt64.le_refl _
  · intro rec hrec rec' hrec'
    rw [(hrev rec' hrec').1, UInt64.le_iff_toNat_le]
    exact Nat.le_of_lt (h.lt rec hrec)
  · intro rec hrec
    rcases List.mem_append.mp hrec with hrec | hrec
    · exact Nat.lt_of_lt_of_le (h.lt rec hrec) hle
    · obtain ⟨heq, hnext⟩ := hrev rec hrec
      rw [heq]
      omega

/-! ### The file -/

/-- The WAL holds whole records in ascending order, and so will the file that a running compaction
is preparing. A compaction is in order if its snapshot is; `alive` says that no entry is beyond the
counter, so that what is written later goes behind a snapshot. -/
structure Ordered (sys : System) : Prop where
  faults : sys.store.wal.faults = []
  file : ∃ recs, sys.store.wal.contents = serializeAll recs ∧ (∀ rec ∈ recs, rec.WellFormed) ∧
    Ascending recs sys.store.nextRev
  alive : AliveRevisions (fun rev => rev.toNat < sys.store.nextRev.toNat) sys.store.keyspace
  pending : ∀ c, sys.compaction = some c → ∃ base ws, Pending sys.store c base ws ∧
    Ascending ((aliveEntries base.keys).map (fun e => snapshotRecord e.1 e.2)
      ++ ws.map Write.record) sys.store.nextRev

/-- In key order, the alive keys were last written at revisions that do not decrease. -/
def System.StepInOrder (sys : System) : Event → Prop
  | .compactA => sys.store.snapshotRecords.Pairwise fun rec rec' => rec.revision ≤ rec'.revision
  | _ => True

omit [LawfulCrates] in
instance (sys : System) (ev : Event) : Decidable (sys.StepInOrder ev) :=
  match ev with
  | .compactA => inferInstanceAs (Decidable (List.Pairwise _ _))
  | .request _ | .watch _ | .cancelWatch _ | .compactB | .compactC | .compactFails | .restart _ =>
      .isTrue trivial

omit [LawfulCrates] in
theorem ordered_fresh : Ordered ⟨fresh, none⟩ where
  faults := rfl
  file := ⟨[], rfl, by simp, .nil _⟩
  alive := .empty _
  pending := by simp

omit [LawfulCrates] in
theorem Ordered.quiet {sys : System} (h : Ordered sys) {s' : StoreState}
    (hq : Quiet sys.store s') : Ordered { sys with store := s' } where
  faults := by rw [hq.wal, h.faults]
  file := by
    rw [hq.wal, hq.nextRev]
    exact h.file
  alive := by
    rw [hq.nextRev, hq.keyspace]
    exact h.alive
  pending := by
    intro c hc
    obtain ⟨base, ws, hp, hascending⟩ := h.pending c hc
    rw [hq.nextRev]
    exact ⟨base, ws, hp.quiet hq, hascending⟩

theorem Ordered.served {sys : System} (h : Ordered sys) {s' : StoreState} {ws : List Write}
    (hserved : Served sys.store ws s') (hfit : ∀ w ∈ ws, w.record.Fits)
    (hcounts : sys.store.nextRev.toNat + 1 < 2 ^ 64) : Ordered { sys with store := s' } := by
  obtain ⟨hle, -, hnew⟩ := hserved.toNat_nextRev hcounts
  refine ⟨hserved.faults, ?_, ?_, ?_⟩
  · obtain ⟨recs, hcontents, hwf, hascending⟩ := h.file
    refine ⟨recs ++ ws.map Write.record, ?_, ?_, hascending.served hserved hfit hcounts⟩
    · rw [hserved.contents, hcontents, serializeAll_append]
    · intro rec hrec
      rcases List.mem_append.mp hrec with hrec | hrec
      · exact hwf rec hrec
      · exact wellFormed_of_fits hfit rec hrec
  · refine (h.alive.mono fun rev hrev => Nat.lt_of_lt_of_le hrev hle).run hserved.run ?_
    intro w hw
    obtain ⟨hrev, hnext⟩ := hnew w hw
    rw [hrev, hnext]
    exact Nat.lt_succ_self _
  · intro c hc
    obtain ⟨base, vs, hp, hascending⟩ := h.pending c hc
    refine ⟨base, vs ++ ws, hp.commits hserved.toCommits hfit, ?_⟩
    rw [List.map_append, ← List.append_assoc]
    exact hascending.served hserved hfit hcounts

/-- The records of phase A, where the alive keys allow it. -/
theorem Ordered.snapshot {sys : System} (h : Ordered sys)
    (hfit : ∀ rec ∈ sys.store.snapshotRecords, rec.Fits) (hkeys : sys.StepInOrder .compactA) :
    Ascending sys.store.snapshotRecords sys.store.nextRev := by
  refine ⟨hkeys, ?_⟩
  intro rec hrec
  rw [snapshotRecords_eq] at hfit hrec
  have hrecFit := hfit rec hrec
  obtain ⟨e, he, rfl⟩ := List.mem_map.mp hrec
  rw [revision_snapshotRecord hrecFit]
  exact h.alive e.1 e.2 (mem_aliveEntries.mp he)

omit [LawfulCrates] in
theorem Ordered.restart {sys : System} (h : Ordered sys) {now : Nat} {s' : StoreState}
    (hopen : openStore now sys.store.wal.contents = .ok s') :
    Ordered { store := s', compaction := none } := by
  obtain ⟨recs, hcontents, hwf, hascending⟩ := h.file
  obtain ⟨recs', n, K, hscan, hK, rfl⟩ := openStore_eq_ok hopen
  rw [hcontents, scanKvFile_serializeAll hwf] at hscan
  cases hscan
  have hbound : ∀ rec ∈ recs, rec.revision.toNat + 1 < 2 ^ 64 := by
    intro rec hrec
    have hlt := hascending.lt rec hrec
    have hnext := sys.store.nextRev.toNat_lt
    omega
  obtain ⟨-, hlt⟩ := opened_lt hbound now sys.store.wal.contents K
  refine ⟨rfl, ⟨recs, hcontents, hwf, hascending.sorted, hlt⟩, ?_, by simp⟩
  refine (AliveRevisions.empty _).replayAll? ?_ hK
  exact fun rec hrec => hlt rec (List.mem_filter.mp hrec).1

/-- **Every event keeps the file in order**, if its compactions do. A request writes at the counter,
beyond all that is in the file. -/
theorem Ordered.step {sys sys' : System} {ev : Event} (h : Ordered sys) (hok : sys.StepOk ev)
    (horder : sys.StepInOrder ev) (hstep : sys.step ev = some sys') : Ordered sys' := by
  obtain ⟨hfit, hcounts⟩ := hok
  cases System.moves_of_step h.faults hstep with
  | @request q ws s' hq hserved =>
      exact h.served hserved (fits_of_stepFits hfit hq hserved.log) hcounts.2
  | watch hquiet => exact h.quiet hquiet
  | cancelWatch hquiet => exact h.quiet hquiet
  | compactA hnone =>
      refine ⟨h.faults, h.file, h.alive, ?_⟩
      intro c hc
      cases hc
      refine ⟨_, [], .start hfit, ?_⟩
      rw [List.map_nil, List.append_nil]
      exact h.snapshot hfit horder
  | @compactB c c' hcomp htarget hsize =>
      refine ⟨h.faults, h.file, h.alive, ?_⟩
      intro c'' hc
      cases hc
      obtain ⟨base, ws, hp, hascending⟩ := h.pending c hcomp
      exact ⟨base, ws, hp.phaseB htarget hsize, hascending⟩
  | @compactC c hcomp =>
      obtain ⟨base, ws, hp, hascending⟩ := h.pending c hcomp
      exact ⟨h.faults, ⟨_, hp.contents_swap, wellFormed_compacted hp.snapshot_fits hp.fits,
        hascending⟩, h.alive, by simp⟩
  | compactFails => exact ⟨h.faults, h.file, h.alive, by simp⟩
  | restart hopen => exact h.restart hopen

/-! ### The hand-off -/

/-- The alive keys are in order at every snapshot, and a flush that a compaction has overtaken reads
records of the new file in their order. -/
def Handoff.StepInOrder (h : Handoff) : HandoffEvent → Prop
  | .server ev => h.sys.StepInOrder ev
  | .phase2 => ∀ f ∈ h.flush, f.swapped = true →
      (scanKvFile h.sys.store.wal.contents f.checkpointOffset).1.Sublist
        (scanKvFile h.sys.store.wal.contents 0).1
  | _ => True

omit [LawfulCrates] in
instance (h : Handoff) (ev : HandoffEvent) : Decidable (h.StepInOrder ev) :=
  match ev with
  | .server ev => inferInstanceAs (Decidable (h.sys.StepInOrder ev))
  | .phase2 => inferInstanceAs (Decidable (∀ f ∈ h.flush, _ → _))
  | .create _ | .checkpoint _ | .compactRev | .admission | .screen | .openWal | .phase1 _
  | .reply =>
      .isTrue trivial

/-- What the scans of a flush have read, or will read. -/
def FlushRun.Ascends (f : FlushRun) (nextRev : UInt64) : Prop :=
  match f.stage with
  | .scanning _ (some orphan) _ => ∃ recs, orphan = serializeAll recs ∧
      (∀ rec ∈ recs, rec.WellFormed) ∧ Ascending recs nextRev
  | .catchingUp _ => Ascending f.scanned nextRev
  | _ => True

/-- The records behind every watcher ascend. A flush under way has its own part of this
(`FlushRun.Ascends`), for what phase 1 has read. -/
structure Ascends (h : Handoff) : Prop where
  log : Ascending h.sys.store.wal.log h.sys.store.nextRev
  origins : ∀ o ∈ h.origins, o.registered ≤ h.sys.store.wal.log.length ∧
    Ascending (o.records h.sys.store.wal.log) h.sys.store.nextRev
  flush : ∀ f ∈ h.flush, f.Ascends h.sys.store.nextRev

omit [LawfulCrates] in
theorem ascends_start {sys : System} (hlog : sys.store.wal.log = []) : Ascends (.start sys) where
  log := by
    rw [Handoff.start, hlog]
    exact .nil _
  origins := by simp [Handoff.start]
  flush := by simp [Handoff.start]

omit [LawfulCrates] in
theorem FlushRun.Ascends.mono {f : FlushRun} {nextRev nextRev' : UInt64} (h : f.Ascends nextRev)
    (hle : nextRev.toNat ≤ nextRev'.toNat) : f.Ascends nextRev' := by
  unfold FlushRun.Ascends at h ⊢
  split at h
  · obtain ⟨recs, horphan, hwf, hascending⟩ := h
    exact ⟨recs, horphan, hwf, hascending.mono hle⟩
  · exact h.mono hle
  · trivial

omit [LawfulCrates] in
/-- A flush that loses its file keeps what it was reading. -/
theorem FlushRun.Ascends.swap {f : FlushRun} {sys : System} (h : f.Ascends sys.store.nextRev)
    (hordered : Ordered sys) : (f.swap sys.store.wal.contents).Ascends sys.store.nextRev := by
  unfold FlushRun.Ascends at h ⊢
  unfold FlushRun.swap
  cases hstage : f.stage with
  | scanning opened orphan active =>
      rw [hstage] at h
      cases orphan with
      | none => exact hordered.file
      | some contents => exact h
  | catchingUp st =>
      rw [hstage] at h
      exact h
  | drained _ | admitting _ _ _ | opening _ | replying _ => trivial

omit [LawfulCrates] in
/-- The part of an ascending file that a scan reads ascends. -/
theorem ascending_scan_take {recs : List KvWalRecord} {nextRev : UInt64}
    (hwf : ∀ rec ∈ recs, rec.WellFormed) (h : Ascending recs nextRev) {n : Nat}
    (hn : n ≤ (serializeAll recs).length) :
    Ascending (scanKvFile ((serializeAll recs).take n) 0).1 nextRev := by
  obtain ⟨k, hscan⟩ := @scanKvFile_append_take _ [] recs (by simp) hwf n hn
  rw [serializeAll, FramedLog.encodeAll, List.flatMap_nil, List.nil_append,
    List.nil_append] at hscan
  rw [hscan]
  exact h.sublist (List.take_sublist k recs)

omit [LawfulCrates] in
/-- What phase 1 reads, of the file as it is or as it was when it was replaced. -/
theorem FlushRun.Ascends.scan₁ {f : FlushRun} {sys : System} {n opened : Nat}
    {orphan : Option Bytes} {active : List WatchContext} (h : f.Ascends sys.store.nextRev)
    (hordered : Ordered sys) (hstage : f.stage = .scanning opened orphan active)
    (hn : n ≤ (orphan.getD sys.store.wal.contents).length) :
    Ascending (scanKvFile ((orphan.getD sys.store.wal.contents).take n) 0).1 sys.store.nextRev := by
  rw [FlushRun.Ascends, hstage] at h
  cases orphan with
  | none =>
      obtain ⟨recs, hcontents, hwf, hascending⟩ := hordered.file
      rw [Option.getD_none, hcontents] at hn ⊢
      exact ascending_scan_take hwf hascending hn
  | some contents =>
      obtain ⟨recs, rfl, hwf, hascending⟩ := h
      exact ascending_scan_take hwf hascending hn

omit [LawfulCrates] in
/-- What phase 2 reads. -/
theorem Ascends.scan₂ {h : Handoff} (hasc : Ascends h) (hordered : Ordered h.sys)
    (hplaced : Placed h) {f : FlushRun} (hf : h.flush = some f) (horder : h.StepInOrder .phase2) :
    Ascending (scanKvFile h.sys.store.wal.contents f.checkpointOffset).1 h.sys.store.nextRev := by
  by_cases hs : f.swapped = true
  · obtain ⟨recs, hcontents, hwf, hascending⟩ := hordered.file
    have hsub := horder f hf hs
    rw [hcontents, scanKvFile_serializeAll hwf, ← hcontents] at hsub
    exact hascending.sublist hsub
  · rw [hplaced.scan hf fun hswapped => absurd hswapped hs]
    exact hasc.log.sublist (List.drop_sublist _ _)

omit [LawfulCrates] in
/-- The two scans, one up to the checkpoint and one beyond it. -/
theorem ascending_origin {f : FlushRun} {wal : WalFile} {ctx : WatchContext} {nextRev : UInt64}
    (h₁ : Ascending f.scanned nextRev)
    (h₂ : Ascending (scanKvFile wal.contents f.checkpointOffset).1 nextRev) :
    Ascending ((f.origin wal ctx).records wal.log) nextRev := by
  rw [Origin.records, FlushRun.drop_registered, List.append_nil]
  have hfirst := h₁.sublist (List.filter_sublist (p := fun rec => rec.revision ≤ f.checkpointRev))
  have hsecond := h₂.sublist (List.filter_sublist (p := fun rec => f.checkpointRev < rec.revision))
  refine ⟨List.pairwise_append.mpr ⟨hfirst.sorted, hsecond.sorted, ?_⟩, ?_⟩
  · intro rec hrec rec' hrec'
    have hle : rec.revision ≤ f.checkpointRev := of_decide_eq_true (List.mem_filter.mp hrec).2
    have hlt : f.checkpointRev < rec'.revision := of_decide_eq_true (List.mem_filter.mp hrec').2
    exact UInt64.le_of_lt (UInt64.lt_of_le_of_lt hle hlt)
  · intro rec hrec
    rcases List.mem_append.mp hrec with hrec | hrec
    · exact hfirst.lt rec hrec
    · exact hsecond.lt rec hrec

/-- **One step keeps the records behind the watchers ascending.** Of the two parts that a flush has
read, the first lies up to the checkpoint and the second beyond it. -/
theorem Ascends.step {h h' : Handoff} {ev : HandoffEvent} (hasc : Ascends h)
    (hordered : Ordered h.sys) (hplaced : Placed h) (hok : h.StepOk ev)
    (horder : h.StepInOrder ev) (hstep : h.step ev = some h') : Ascends h' := by
  cases Handoff.moves_of_step hordered.faults hstep with
  | @request q ws s' hq hpub =>
      have hfit := fits_of_stepFits hok.1 hq hpub.log
      refine ⟨?_, ?_, ?_⟩
      · dsimp only
        rw [hpub.log]
        exact hasc.log.served hpub.toServed hfit hok.2.2
      · intro o ho
        obtain ⟨hregistered, hrecords⟩ := hasc.origins o ho
        dsimp only
        rw [hpub.log]
        refine ⟨?_, ?_⟩
        · rw [List.length_append]
          exact Nat.le_add_right_of_le hregistered
        · rw [Origin.records_append hregistered]
          exact hrecords.served hpub.toServed hfit hok.2.2
      · intro f hf
        exact (hasc.flush f hf).mono (hpub.toServed.toNat_nextRev hok.2.2).1
  | cancelWatch =>
      exact { hasc with origins := fun o ho => hasc.origins o (mem_origins_of_cancel ho) }
  | compactA | compactB | compactFails | create => exact { hasc with }
  | compactC =>
      refine { hasc with flush := ?_ }
      intro f' hf'
      obtain ⟨f, hf, rfl⟩ := Option.map_eq_some_iff.mp hf'
      -- phase 1 may still be reading the file that the swap replaced
      exact (hasc.flush f hf).swap hordered
  | restart hopen =>
      obtain ⟨_, _, _, _, _, rfl⟩ := openStore_eq_ok hopen
      exact ascends_start rfl
  | checkpoint | compactRev | refuse | admission | openWal =>
      refine { hasc with flush := ?_ }
      intro f' hf'
      cases hf'
      trivial
  | screen | reply =>
      refine { hasc with flush := ?_ }
      intro f' hf'
      dsimp only at hf'
      split at hf'
      · cases hf'
      · cases hf'
        trivial
  | phase1 hf hstage hopened hn =>
      refine { hasc with flush := ?_ }
      intro f' hf'
      cases hf'
      exact (hasc.flush _ hf).scan₁ hordered hstage hn
  | @phase2 f st hf hstage =>
      have hscanned := hasc.flush f hf
      rw [FlushRun.Ascends, hstage] at hscanned
      -- phase 2 reads on from the checkpoint, where no swap has put an older record
      have hscan := hasc.scan₂ hordered hplaced hf horder
      generalize (flushPhase2 h.sys.store.wal.contents f.checkpointRev f.checkpointOffset
        st).active = active
      have hquiet := quiet_registerAll active h.sys.store
      refine ⟨?_, ?_, ?_⟩
      · dsimp only
        rw [hquiet.wal, hquiet.nextRev]
        exact hasc.log
      · intro o ho
        dsimp only
        rw [hquiet.wal, hquiet.nextRev]
        rcases List.mem_append.mp ho with ho | ho
        · exact hasc.origins o ho
        · obtain ⟨ctx, -, rfl⟩ := List.mem_map.mp ho
          exact ⟨Nat.le_refl _, ascending_origin hscanned hscan⟩
      · intro f' hf'
        cases hf'
        trivial

/-- The file stays in order beside a flush. -/
theorem Ordered.handoff {h h' : Handoff} {ev : HandoffEvent} (hordered : Ordered h.sys)
    (hok : h.StepOk ev) (horder : h.StepInOrder ev) (hstep : h.step ev = some h') :
    Ordered h'.sys := by
  rcases Handoff.sys_of_step hordered.faults hstep with ⟨e, rfl, hsys⟩ | ⟨s', hquiet, hsys⟩
  · exact hordered.step hok horder hsys
  · rw [hsys]
    exact hordered.quiet hquiet

/-- **A watcher gets its events in the order of their revisions**, in every run whose snapshots
find the alive keys in that order. -/
theorem events_in_order {evs : List HandoffEvent} {h : Handoff}
    (hrun : (Handoff.start ⟨fresh, none⟩).run evs = some h)
    (hok : Trace.Along Handoff.step (fun h ev => h.StepOk ev ∧ h.StepInOrder ev)
      (.start ⟨fresh, none⟩) evs) :
    ∀ reg ∈ h.sys.store.watchers,
      reg.sender.Pairwise fun event event' => event.revision ≤ event'.revision := by
  have hstart : Accounted (.start ⟨fresh, none⟩) ∧ Placed (.start ⟨fresh, none⟩)
      ∧ Ordered ⟨fresh, none⟩ ∧ Ascends (.start ⟨fresh, none⟩) :=
    ⟨accounted_start rfl rfl, placed_start rfl, ordered_fresh, ascends_start rfl⟩
  have hinv := Trace.invariant
    (fun h ev h' (hinv : Accounted h ∧ Placed h ∧ Ordered h.sys ∧ Ascends h) hev hstep => by
      obtain ⟨hacc, hplaced, hordered, hasc⟩ := hinv
      exact ⟨hacc.step hev.1 hstep, hplaced.step hacc.faults hev.1 hstep,
        hordered.handoff hev.1 hev.2 hstep, hasc.step hordered hplaced hev.1 hev.2 hstep⟩)
    hstart hok hrun
  obtain ⟨hacc, -, -, hasc⟩ := hinv
  intro reg hreg
  obtain ⟨o, ho⟩ := exists_origin hacc hreg
  have hascending := (hasc.origins o (List.of_mem_zip ho).2).2
  -- a sublist of records in revision order is in revision order
  have hchanges : (reg.sender.map WatchEvent.change).Pairwise
      fun c c' => c.revision ≤ c'.revision :=
    (hascending.changesFor reg.bound reg.filters).sublist (hacc.watched _ ho).sublist
  rw [List.pairwise_map] at hchanges
  exact hchanges

end

/-- Two keys put in key order, a compaction, a restart, and a put between the phases of a flush. -/
theorem events_in_order_compacted :
    ∃ h, ∃ reg ∈ h.sys.store.watchers,
      (Handoff.start ⟨fresh, none⟩).run
        [.server (.request (.put { key := [1] })), .server (.request (.put { key := [1] })),
          .server (.request (.put { key := [2] })), .server .compactA, .server .compactB,
          .server .compactC, .server (.restart 0),
          .create { key := [1], rangeEnd := [0], startRevision := 1 }, .checkpoint 1, .compactRev,
          .admission, .screen, .openWal, .phase1 86, .server (.request (.put { key := [1] })),
          .phase2, .reply, .server (.request (.deleteRange { key := [2] }))] = some h ∧
      (reg.sender.Pairwise fun event event' => event.revision ≤ event'.revision) ∧
      reg.sender.map WatchEvent.revision = [2, 3, 4, 5] := by
  have hrun : (decide (Trace.Along Handoff.step (fun h ev => h.StepOk ev ∧ h.StepInOrder ev)
      (.start ⟨fresh, none⟩)
        [.server (.request (.put { key := [1] })), .server (.request (.put { key := [1] })),
          .server (.request (.put { key := [2] })), .server .compactA, .server .compactB,
          .server .compactC, .server (.restart 0),
          .create { key := [1], rangeEnd := [0], startRevision := 1 }, .checkpoint 1, .compactRev,
          .admission, .screen, .openWal, .phase1 86, .server (.request (.put { key := [1] })),
          .phase2, .reply, .server (.request (.deleteRange { key := [2] }))]) &&
      ((Handoff.start ⟨fresh, none⟩).run
        [.server (.request (.put { key := [1] })), .server (.request (.put { key := [1] })),
          .server (.request (.put { key := [2] })), .server .compactA, .server .compactB,
          .server .compactC, .server (.restart 0),
          .create { key := [1], rangeEnd := [0], startRevision := 1 }, .checkpoint 1, .compactRev,
          .admission, .screen, .openWal, .phase1 86, .server (.request (.put { key := [1] })),
          .phase2, .reply, .server (.request (.deleteRange { key := [2] }))]).any fun h =>
        h.sys.store.watchers.any fun reg =>
          reg.sender.map WatchEvent.revision = [2, 3, 4, 5]) = true := by
    decide +kernel
  obtain ⟨hok, hrun⟩ := (Bool.and_eq_true _ _).mp hrun
  obtain ⟨h, hh, hreg⟩ := (Option.any_eq_true _ _).mp hrun
  obtain ⟨reg, hmem, hrevs⟩ := List.any_eq_true.mp hreg
  exact ⟨h, reg, hmem, hh, events_in_order hh (of_decide_eq_true hok) reg hmem,
    of_decide_eq_true hrevs⟩

/-- Two keys put against key order: a compaction turns their records around, and a watcher from the
beginning gets them so. -/
theorem compaction_reorders_events :
    ∃ h, ∃ reg ∈ h.sys.store.watchers,
      (Handoff.start ⟨fresh, none⟩).run
        [.server (.request (.put { key := [2] })), .server (.request (.put { key := [1] })),
          .server .compactA, .server .compactB, .server .compactC,
          .create { key := [1], rangeEnd := [0], startRevision := 1 }, .checkpoint 1, .compactRev,
          .admission, .screen, .openWal, .phase1 86, .phase2, .reply] = some h ∧
      reg.sender.map WatchEvent.revision = [2, 1] ∧
      ¬ reg.sender.Pairwise fun event event' => event.revision ≤ event'.revision := by
  have hrun : (((Handoff.start ⟨fresh, none⟩).run
        [.server (.request (.put { key := [2] })), .server (.request (.put { key := [1] })),
          .server .compactA, .server .compactB, .server .compactC,
          .create { key := [1], rangeEnd := [0], startRevision := 1 }, .checkpoint 1, .compactRev,
          .admission, .screen, .openWal, .phase1 86, .phase2, .reply]).any fun h =>
        h.sys.store.watchers.any fun reg =>
          reg.sender.map WatchEvent.revision = [2, 1] ∧
            ¬ reg.sender.Pairwise fun event event' => event.revision ≤ event'.revision) = true := by
    decide +kernel
  obtain ⟨h, hh, hreg⟩ := (Option.any_eq_true _ _).mp hrun
  obtain ⟨reg, hmem, hrevs⟩ := List.any_eq_true.mp hreg
  obtain ⟨hrevs, hunordered⟩ := of_decide_eq_true hrevs
  exact ⟨h, reg, hmem, hh, hrevs, hunordered⟩

end Rudurru
