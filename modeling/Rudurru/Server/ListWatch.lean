import Rudurru.Server.Channels
import Rudurru.Server.ExactlyOnce
import Rudurru.Server.Replica

/-!
# Rudurru.Server.ListWatch

List, then watch. A client lists a range, and watches the range from the revision after the one in
the header of the response; to the copy that it made of the list it applies the events that come on
its stream. What it has been sent at any time is a prefix of what was written to the range since the
list, and when nothing is on its way its copy is the range (`list_then_watch`).

Writes and compactions go on all the time. The one thing that must not happen is that the WAL file
is replaced between the list and the registration of the watcher: a compaction drops what was
overwritten or deleted, and phase 1 has nothing else to read it from.

The induction is over the events of one process, and its invariant (`Resumes`) describes the create
on its way: in the queue and in the flush it is awaited, and the file holds what it will need; once
it is registered, its watcher was sent, or will find in the log, the writes since the list
(`Resumed`). `Bounded` is about the file alone: whatever a scan reads, its revisions lie below the
counter and its records name their keys. From there on the argument is that of `Server.Transport`
and `Server.Replica`: the channel reaches the stream in order, and a copy that is given the events
of all writes goes on showing the range.
-/

namespace Rudurru

section

variable [Crates]

/-! ### The file

The invariant of the file alone, kept by all events, compactions and restarts among them.
-/

/-- What stands in a WAL of the server: whole records that name their keys, of revisions below the
counter. -/
structure KvWalRecord.Filed (nextRev : Nat) (rec : KvWalRecord) : Prop where
  wellFormed : rec.WellFormed
  exact : rec.Exact
  revision_lt : rec.revision.toNat < nextRev

theorem KvWalRecord.Exact.carries {rec : KvWalRecord} (h : rec.Exact) (hwf : rec.WellFormed) :
    rec.Carries := by
  obtain ⟨key, hkey, hblob⟩ := h
  exact ⟨hwf, key, hkey, fun _ => hblob⟩

/-- All that the file, the map and a running compaction hold is from revisions that were given
out. -/
structure Bounded (sys : System) : Prop where
  faults : sys.store.wal.faults = []
  nextRev_pos : 0 < sys.store.nextRev.toNat
  file : ∃ recs, sys.store.wal.contents = serializeAll recs ∧
    ∀ rec ∈ recs, rec.Filed sys.store.nextRev.toNat
  alive : AliveRevisions (fun rev => rev.toNat < sys.store.nextRev.toNat) sys.store.keyspace
  blobs : Blobs sys.store.keyspace
  pending : ∀ c, sys.compaction = some c → ∃ base ws, Pending sys.store c base ws ∧
    AliveRevisions (fun rev => rev.toNat < sys.store.nextRev.toNat) base ∧
    ∀ w ∈ ws, w.rev.toNat < sys.store.nextRev.toNat

theorem bounded_fresh : Bounded ⟨fresh, none⟩ where
  faults := rfl
  nextRev_pos := by decide
  file := ⟨[], rfl, by simp⟩
  alive := .empty _
  blobs := blobs_empty
  pending := by simp

theorem Bounded.quiet {sys : System} (h : Bounded sys) {s' : StoreState}
    (hq : Quiet sys.store s') : Bounded { sys with store := s' } where
  faults := by rw [hq.wal, h.faults]
  nextRev_pos := by rw [hq.nextRev]; exact h.nextRev_pos
  file := by
    rw [hq.wal, hq.nextRev]
    exact h.file
  alive := by
    rw [hq.nextRev, hq.keyspace]
    exact h.alive
  blobs := by
    rw [hq.keyspace]
    exact h.blobs
  pending := by
    intro c hc
    obtain ⟨base, ws, hp, hrest⟩ := h.pending c hc
    rw [hq.nextRev]
    exact ⟨base, ws, hp.quiet hq, hrest⟩

variable [LawfulCrates]

theorem Write.filed_record {w : Write} (hfit : w.record.Fits) {n : Nat} (hlt : w.rev.toNat < n) :
    w.record.Filed n := by
  obtain ⟨hwf, -, hrev⟩ := Write.record_spec hfit
  exact ⟨hwf, Write.exact_record hfit, by rw [hrev]; exact hlt⟩

theorem Bounded.served {sys : System} (h : Bounded sys) {s' : StoreState} {ws : List Write}
    (hserved : Served sys.store ws s') (hfit : ∀ w ∈ ws, w.record.Fits)
    (hcount : sys.store.nextRev.toNat + 1 < 2 ^ 64) : Bounded { sys with store := s' } := by
  obtain ⟨hle, -, hnew⟩ := hserved.toNat_nextRev hcount
  have hlt : ∀ w ∈ ws, w.rev.toNat < s'.nextRev.toNat := by
    intro w hw
    obtain ⟨hrev, hnext⟩ := hnew w hw
    rw [hrev, hnext]
    exact Nat.lt_succ_self _
  have hkeep : ∀ rev : UInt64, rev.toNat < sys.store.nextRev.toNat →
      rev.toNat < s'.nextRev.toNat := fun rev hrev => Nat.lt_of_lt_of_le hrev hle
  refine ⟨hserved.faults, Nat.lt_of_lt_of_le h.nextRev_pos hle, ?_, ?_, ?_, ?_⟩
  · obtain ⟨recs, hcontents, hrecs⟩ := h.file
    refine ⟨recs ++ ws.map Write.record, ?_, ?_⟩
    · rw [hserved.contents, hcontents, serializeAll_append]
    · intro rec hrec
      rcases List.mem_append.mp hrec with hrec | hrec
      · obtain ⟨hwf, hexact, hrevision⟩ := hrecs rec hrec
        exact ⟨hwf, hexact, hkeep _ hrevision⟩
      · obtain ⟨w, hw, rfl⟩ := List.mem_map.mp hrec
        exact Write.filed_record (hfit w hw) (hlt w hw)
  · exact (h.alive.mono hkeep).run hserved.run hlt
  · exact hserved.run.invariant h.blobs fun _ w hw hK haccepts => hK.apply haccepts (hfit w hw)
  · intro c hc
    obtain ⟨base, vs, hp, hbase, hvs⟩ := h.pending c hc
    refine ⟨base, vs ++ ws, hp.commits hserved.toCommits hfit, hbase.mono hkeep, ?_⟩
    intro w hw
    rcases List.mem_append.mp hw with hw | hw
    · exact hkeep _ (hvs w hw)
    · exact hlt w hw

/-- Phase C leaves records of the snapshot and of the writes since. -/
theorem Bounded.swap {sys : System} (h : Bounded sys) {c : Compaction}
    (hcomp : sys.compaction = some c) :
    Bounded { store := sys.store.compactPhaseC c.target c.walSize, compaction := none } := by
  obtain ⟨base, ws, hp, hbase, hws⟩ := h.pending c hcomp
  refine ⟨h.faults, h.nextRev_pos, ⟨_, hp.contents_swap, ?_⟩, h.alive, h.blobs, by simp⟩
  have hlt := revision_compacted hp hbase hws
  have hwf := wellFormed_compacted hp.snapshot_fits hp.fits
  intro rec hrec
  refine ⟨hwf rec hrec, ?_, hlt rec hrec⟩
  rcases List.mem_append.mp hrec with hrec | hrec
  · obtain ⟨e, he, rfl⟩ := List.mem_map.mp hrec
    exact exact_snapshotRecord (hp.snapshot_fits e he)
  · obtain ⟨w, hw, rfl⟩ := List.mem_map.mp hrec
    exact Write.exact_record (hp.fits w hw)

theorem Bounded.restart {sys : System} (h : Bounded sys) {now : Nat}
    {s' : StoreState} (hopen : openStore now sys.store.wal.contents = .ok s') :
    Bounded { store := s', compaction := none } := by
  obtain ⟨recs, hcontents, hrecs⟩ := h.file
  obtain ⟨recs', n, K, hscan, hK, rfl⟩ := openStore_eq_ok hopen
  rw [hcontents, scanKvFile_serializeAll fun rec hrec => (hrecs rec hrec).wellFormed] at hscan
  cases hscan
  have hbound : ∀ rec ∈ recs, rec.revision.toNat + 1 < 2 ^ 64 := by
    intro rec hrec
    have hlt := (hrecs rec hrec).revision_lt
    have hnext := sys.store.nextRev.toNat_lt
    omega
  obtain ⟨hpos, hlt⟩ := opened_lt hbound now sys.store.wal.contents K
  refine ⟨rfl, hpos, ⟨recs, hcontents, ?_⟩, ?_, ?_, by simp⟩
  · intro rec hrec
    obtain ⟨hwf, hexact, -⟩ := hrecs rec hrec
    exact ⟨hwf, hexact, hlt rec hrec⟩
  · refine (AliveRevisions.empty _).replayAll? ?_ hK
    exact fun rec hrec => hlt rec (List.mem_filter.mp hrec).1
  · refine blobs_empty.replayAll? ?_ hK
    intro rec hrec
    obtain ⟨hwf, hexact, -⟩ := hrecs rec (List.mem_filter.mp hrec).1
    exact hexact.carries hwf

/-- **Every event keeps it so.** Revisions are given out before they are written, and a snapshot has
those of its entries. -/
theorem Bounded.step {sys sys' : System} {ev : Event} (h : Bounded sys) (hok : sys.StepOk ev)
    (hstep : sys.step ev = some sys') : Bounded sys' := by
  obtain ⟨hfit, hcounts⟩ := hok
  cases System.moves_of_step h.faults hstep with
  | @request q ws s' hq hserved =>
      exact h.served hserved (fits_of_stepFits hfit hq hserved.log) hcounts.2
  | watch hquiet => exact h.quiet hquiet
  | cancelWatch hquiet => exact h.quiet hquiet
  | compactA =>
      refine { h with pending := ?_ }
      intro c hc
      cases hc
      exact ⟨_, [], .start hfit, h.alive, by simp⟩
  | @compactB c c' hcomp htarget hsize =>
      refine { h with pending := ?_ }
      intro c'' hc
      cases hc
      obtain ⟨base, ws, hp, hrest⟩ := h.pending c hcomp
      exact ⟨base, ws, hp.phaseB htarget hsize, hrest⟩
  | @compactC c hcomp => exact h.swap hcomp
  | compactFails => exact { h with pending := by simp }
  | restart hopen => exact h.restart hopen

/-- Beside the flush as well. -/
theorem Bounded.handoff {h h' : Handoff} {ev : HandoffEvent} (hb : Bounded h.sys)
    (hok : h.StepOk ev) (hstep : h.step ev = some h') : Bounded h'.sys := by
  rcases Handoff.sys_of_step hb.faults hstep with ⟨e, rfl, hsys⟩ | ⟨s', hquiet, hsys⟩
  · exact hb.step hok hsys
  · rw [hsys]
    exact hb.quiet hquiet

/-! ### What was written since -/

/-- `ws` was written since a state. -/
structure WroteSince (s : StoreState) (ws : List Write) (s' : StoreState) : Prop where
  log : s'.wal.log = s.wal.log ++ ws.map Write.record
  run : Keyspace.Run s.keyspace ws s'.keyspace
  fits : ∀ w ∈ ws, w.record.Fits
  le_rev : ∀ w ∈ ws, s.nextRev.toNat ≤ w.rev.toNat
  rev_lt : ∀ w ∈ ws, w.rev.toNat < s'.nextRev.toNat
  nextRev_le : s.nextRev.toNat ≤ s'.nextRev.toNat

omit [LawfulCrates] in
theorem WroteSince.refl (s : StoreState) : WroteSince s [] s where
  log := (List.append_nil _).symm
  run := .nil
  fits := nofun
  le_rev := nofun
  rev_lt := nofun
  nextRev_le := Nat.le_refl _

omit [LawfulCrates] in
theorem WroteSince.quiet {s s' s'' : StoreState} {ws : List Write} (h : WroteSince s ws s')
    (hq : Quiet s' s'') : WroteSince s ws s'' where
  log := by rw [hq.wal, h.log]
  run := by rw [hq.keyspace]; exact h.run
  fits := h.fits
  le_rev := h.le_rev
  rev_lt := by rw [hq.nextRev]; exact h.rev_lt
  nextRev_le := by rw [hq.nextRev]; exact h.nextRev_le

omit [LawfulCrates] in
theorem WroteSince.served {s s' s'' : StoreState} {ws vs : List Write} (h : WroteSince s ws s')
    (hserved : Served s' vs s'') (hfit : ∀ w ∈ vs, w.record.Fits)
    (hcount : s'.nextRev.toNat + 1 < 2 ^ 64) : WroteSince s (ws ++ vs) s'' := by
  obtain ⟨hle, -, hnew⟩ := hserved.toNat_nextRev hcount
  refine ⟨?_, h.run.append hserved.run, ?_, ?_, ?_, Nat.le_trans h.nextRev_le hle⟩
  · rw [hserved.log, h.log, List.map_append, List.append_assoc]
  · intro w hw
    rcases List.mem_append.mp hw with hw | hw
    · exact h.fits w hw
    · exact hfit w hw
  · intro w hw
    rcases List.mem_append.mp hw with hw | hw
    · exact h.le_rev w hw
    · rw [(hnew w hw).1]
      exact h.nextRev_le
  · intro w hw
    rcases List.mem_append.mp hw with hw | hw
    · exact Nat.lt_of_lt_of_le (h.rev_lt w hw) hle
    · obtain ⟨hrev, hnext⟩ := hnew w hw
      rw [hrev, hnext]
      exact Nat.lt_succ_self _

/-- The revision of the header of a list is below those of all later writes. -/
theorem WroteSince.current_lt {s s' : StoreState} {ws : List Write} (h : WroteSince s ws s')
    (hpos : 0 < s.nextRev.toNat) :
    ∀ rec ∈ ws.map Write.record, s.currentRevision < rec.revision := by
  intro rec hrec
  obtain ⟨w, hw, rfl⟩ := List.mem_map.mp hrec
  have hcurrent := toNat_currentRevision hpos
  have hle := h.le_rev w hw
  rw [(Write.record_spec (h.fits w hw)).2.2, UInt64.lt_iff_toNat_lt]
  omega

/-! ### A create since the list

From here on one create is followed, by its number. All the rest of the server is as in any run.
-/

/-- The watcher was sent, or will find, what was written since the list. -/
structure Resumed (s : StoreState) (ws : List Write) (log : List KvWalRecord)
    (p : WatchRegistration × Origin) : Prop where
  registered_le : p.2.registered ≤ log.length
  checkpoint : s.currentRevision ≤ p.2.checkpointRev
  records : (p.2.records log).filter (s.currentRevision < ·.revision) = ws.map Write.record
  named : ∀ e ∈ p.1.sender, e.Named

/-- A flush that is going to register the create finds the file as it was at the list, with what was
written since behind it. -/
structure FlushRun.Resumes (f : FlushRun) (s : StoreState) (recs : List KvWalRecord)
    (ws : List Write) (nextRev : UInt64) (n : Nat) : Prop where
  divides : ∃ before after, f.Divides nextRev (recs ++ ws.map Write.record) before after
  checkpoint : s.currentRevision ≤ f.checkpointRev
  named : ∀ ctx ∈ f.stage.serving, ctx.reply = n → ∀ e ∈ ctx.eventTx, e.Named

/-- Is the create still to be registered? -/
def Handoff.Awaits (h : Handoff) (n : Nat) : Prop := n ∈ h.coming ∨ h.issued.length ≤ n

/-- **A create that comes after a list**, with its watcher once it is registered. -/
structure Resumes (s : StoreState) (recs : List KvWalRecord) (n : Nat) (ws : List Write)
    (h : Handoff) : Prop where
  bounded : Bounded h.sys
  tracked : Tracked h
  since : WroteSince s ws h.sys.store
  watched : ∀ p ∈ h.watched, p.2.create = n → Resumed s ws h.sys.store.wal.log p
  file : h.Awaits n → h.sys.store.wal.contents = serializeAll (recs ++ ws.map Write.record)
  flush : ∀ f ∈ h.flush, n ∈ f.stage.waiting.map (·.1) →
    f.Resumes s recs ws h.sys.store.nextRev n

omit [Crates] [LawfulCrates] in
/-- A registered create is not awaited. -/
theorem Tracked.not_awaits {h : Handoff} (ht : Tracked h) {n : Nat} (hn : n ∈ h.present) :
    ¬ h.Awaits n := by
  rintro (hcoming | hle)
  · exact ht.not_registered_of_waiting hcoming hn
  · obtain ⟨e, he, rfl⟩ := List.mem_map.mp hn
    have hid := ht.ids e (List.mem_append_left _ he)
    exact absurd (List.getElem?_eq_some_iff.mp hid).1 (Nat.not_lt.mpr hle)

omit [Crates] [LawfulCrates] in
/-- A create that is awaited was awaited before. -/
theorem Handoff.Extends.awaits {h h' : Handoff} (hext : h.Extends h') {n : Nat}
    (hn : h'.Awaits n) : h.Awaits n := by
  rcases hn with hcoming | hle
  · rcases hext.coming n hcoming with hcoming | rfl
    · exact .inl hcoming
    · exact .inr (Nat.le_refl _)
  · exact .inr (Nat.le_trans hext.issued.length_le hle)

omit [Crates] [LawfulCrates] in
/-- A create in a flush is under way. -/
theorem mem_coming_of_flush {h : Handoff} {f : FlushRun} (hf : h.flush = some f) {n : Nat}
    (hn : n ∈ f.stage.waiting.map (·.1)) : n ∈ h.coming := by
  rw [Handoff.coming, waiting_of_flush hf, List.map_append]
  exact List.mem_append_left _ hn

section

variable {s : StoreState} {recs : List KvWalRecord} {n : Nat} {ws : List Write} {h h' : Handoff}

/-- The records of the file at the list, and those written since. -/
theorem WroteSince.filed {s' : StoreState} (hw : WroteSince s ws s')
    (hrecs : ∀ rec ∈ recs, rec.Filed s.nextRev.toNat) :
    ∀ rec ∈ recs ++ ws.map Write.record, rec.Filed s'.nextRev.toNat := by
  intro rec hrec
  rcases List.mem_append.mp hrec with hrec | hrec
  · obtain ⟨hwf, hexact, hlt⟩ := hrecs rec hrec
    exact ⟨hwf, hexact, Nat.lt_of_lt_of_le hlt hw.nextRev_le⟩
  · obtain ⟨w, hmem, rfl⟩ := List.mem_map.mp hrec
    exact Write.filed_record (hw.fits w hmem) (hw.rev_lt w hmem)

/-- What was written since is what lies beyond the revision of the list. -/
theorem WroteSince.filter_records {s' : StoreState} (hw : WroteSince s ws s')
    (hpos : 0 < s.nextRev.toNat) (hrecs : ∀ rec ∈ recs, rec.Filed s.nextRev.toNat) :
    (recs ++ ws.map Write.record).filter (s.currentRevision < ·.revision)
      = ws.map Write.record := by
  have hcurrent := toNat_currentRevision hpos
  have hbefore : recs.filter (s.currentRevision < ·.revision) = [] := by
    refine List.filter_eq_nil_iff.mpr fun rec hrec hlt => ?_
    have hbelow := (hrecs rec hrec).revision_lt
    have hlt := UInt64.lt_iff_toNat_lt.mp (of_decide_eq_true hlt)
    omega
  rw [List.filter_append, hbefore, List.nil_append, List.filter_eq_self]
  exact fun rec hrec => decide_eq_true (hw.current_lt hpos rec hrec)

/-- Requests write behind all that. -/
theorem Resumes.request (hr : Resumes s recs n ws h) (hpos : 0 < s.nextRev.toNat)
    {s' : StoreState} {vs : List Write} (hpub : Published h.sys.store vs s')
    (hfit : ∀ w ∈ vs, w.record.Fits)
    (hcount : h.sys.store.nextRev.toNat + 1 < 2 ^ 64)
    (hb : Bounded { h.sys with store := s' })
    (ht : Tracked { h with sys := { h.sys with store := s' } }) :
    Resumes s recs n (ws ++ vs) { h with sys := { h.sys with store := s' } } where
  bounded := hb
  tracked := ht
  since := hr.since.served hpub.toServed hfit hcount
  watched := by
    intro p hp hcreate
    rw [Handoff.watched, hpub.watchers, List.zip_map_left] at hp
    obtain ⟨p₀, hp₀, rfl⟩ := List.mem_map.mp hp
    obtain ⟨hregistered, hcheckpoint, hrecords, hnamed⟩ := hr.watched p₀ hp₀ hcreate
    -- what is written now is above the revision of the list
    have hlater := (hr.since.served hpub.toServed hfit hcount).current_lt hpos
    refine ⟨?_, hcheckpoint, ?_, ?_⟩
    · rw [hpub.log, List.length_append]
      exact Nat.le_add_right_of_le hregistered
    · -- so all of it is news for the copy
      have hnews : (vs.map Write.record).filter (s.currentRevision < ·.revision)
          = vs.map Write.record := by
        refine List.filter_eq_self.mpr fun rec hrec => decide_eq_true (hlater rec ?_)
        rw [List.map_append]
        exact List.mem_append_right _ hrec
      show (p₀.2.records s'.wal.log).filter _ = _
      rw [hpub.log, Origin.records_append hregistered, List.filter_append, hrecords, hnews,
        List.map_append]
    · exact named_notifyWrites (named_events hr.bounded.blobs hpub.run hfit) hnamed
  file := by
    intro hn
    show s'.wal.contents = _
    rw [hpub.contents, hr.file hn, List.map_append, ← List.append_assoc]
    exact (serializeAll_append _ _).symm
  flush := by
    intro f hf hn
    obtain ⟨⟨before, after, hdivides⟩, hcheckpoint, hnamed⟩ := hr.flush f hf hn
    obtain ⟨hle, -, hnew⟩ := hpub.toServed.toNat_nextRev hcount
    refine ⟨⟨before, after ++ vs.map Write.record, ?_⟩, hcheckpoint, hnamed⟩
    rw [List.map_append, ← List.append_assoc]
    refine hdivides.append hle ?_
    intro rec hrec
    obtain ⟨w, hw, rfl⟩ := List.mem_map.mp hrec
    rw [(Write.record_spec (hfit w hw)).2.2, hpub.rev_eq w hw]

omit [LawfulCrates] in
/-- A flush goes on without sending anything. -/
theorem FlushRun.Resumes.setStage {f : FlushRun} {nextRev : UInt64}
    (hf : f.Resumes s recs ws nextRev n) {stage : FlushStage}
    (hdivides : ∀ before after, f.Divides nextRev (recs ++ ws.map Write.record) before after →
      FlushRun.Divides { f with stage } nextRev (recs ++ ws.map Write.record) before after)
    (hserving : ∀ ctx ∈ stage.serving, ctx.eventTx = [] ∨ ctx ∈ f.stage.serving) :
    FlushRun.Resumes { f with stage } s recs ws nextRev n where
  divides := by
    obtain ⟨before, after, h⟩ := hf.divides
    exact ⟨before, after, hdivides before after h⟩
  checkpoint := hf.checkpoint
  named := by
    intro ctx hctx hreply
    rcases hserving ctx hctx with hempty | hbefore
    · rw [hempty]
      nofun
    · exact hf.named ctx hbefore hreply

/-- Phase 1 reads what was there at the checkpoint. -/
theorem FlushRun.Resumes.phase1 {f : FlushRun} {nextRev : UInt64}
    (hf : f.Resumes s recs ws nextRev n) {N : Nat}
    (hrecs : ∀ rec ∈ recs ++ ws.map Write.record, rec.Filed N) {opened m : Nat}
    {orphan : Option Bytes} {active : List WatchContext}
    (hstage : f.stage = .scanning opened orphan active) {contents : Bytes}
    (hcontents : contents = serializeAll (recs ++ ws.map Write.record)) (hopened : opened ≤ m)
    (hm : m ≤ (orphan.getD contents).length) :
    FlushRun.Resumes { f with
      stage := .catchingUp (flushPhase1 ((orphan.getD contents).take m) f.checkpointRev active)
      scanned := (scanKvFile ((orphan.getD contents).take m) 0).1 } s recs ws nextRev n := by
  have hwf : ∀ rec ∈ recs ++ ws.map Write.record, rec.WellFormed :=
    fun rec hrec => (hrecs rec hrec).wellFormed
  obtain ⟨before, after, hdivides⟩ := hf.divides
  have hscanning := hdivides.stage
  rw [hstage] at hscanning
  obtain ⟨hoffset, rfl⟩ := hscanning
  rw [Option.getD_none, hcontents] at hm ⊢
  refine ⟨⟨before, after, { hdivides with stage := ?_ }⟩, hf.checkpoint, ?_⟩
  · exact hdivides.scan₁ hwf (Nat.le_trans hoffset hopened) hm
  · obtain ⟨k, -, hscan⟩ := scanKvFile_take hwf hm
    -- the records read back are those written, so their events name the keys written
    have hexact : ∀ rec ∈ (scanKvFile ((serializeAll (recs ++ ws.map Write.record)).take m) 0).1,
        rec.Exact := by
      intro rec hrec
      rw [hscan] at hrec
      exact (hrecs rec ((List.take_sublist _ _).subset hrec)).exact
    intro ctx hctx hreply
    have hserving : ctx ∈ (flushPhase1 ((serializeAll (recs ++ ws.map Write.record)).take m)
      f.checkpointRev active).active := hctx
    rw [flushPhase1, foldl_phase1Record_eq] at hserving
    obtain ⟨ctx₀, hctx₀, rfl⟩ := List.mem_map.mp hserving
    intro e he
    rcases List.mem_append.mp he with he | he
    · exact hf.named ctx₀ (by rw [hstage]; exact hctx₀) hreply e he
    · exact named_sentAll hexact _ e he

/-- Phase 2 reads the rest, and registers the watcher. -/
theorem FlushRun.Resumes.phase2 {f : FlushRun} {nextRev : UInt64}
    (hf : f.Resumes s recs ws nextRev n) (hwrote : (recs ++ ws.map Write.record).filter
      (s.currentRevision < ·.revision) = ws.map Write.record) {N : Nat}
    (hrecs : ∀ rec ∈ recs ++ ws.map Write.record, rec.Filed N) {st : ReplayState}
    (hstage : f.stage = .catchingUp st) {wal : WalFile}
    (hcontents : wal.contents = serializeAll (recs ++ ws.map Write.record)) {ctx : WatchContext}
    (hctx : ctx ∈ (flushPhase2 wal.contents f.checkpointRev f.checkpointOffset st).active)
    (hreply : ctx.reply = n) :
    Resumed s ws wal.log (ctx.registration, f.origin wal ctx) := by
  have hwf : ∀ rec ∈ recs ++ ws.map Write.record, rec.WellFormed :=
    fun rec hrec => (hrecs rec hrec).wellFormed
  obtain ⟨before, after, hdivides⟩ := hf.divides
  have hscanned := hdivides.stage
  rw [hstage] at hscanned
  have hrest := hdivides.scan₂ hwf
  rw [← hcontents] at hrest
  refine ⟨Nat.le_refl _, hf.checkpoint, ?_, ?_⟩
  · -- both scans together read the whole file: no swap has taken a part of it away
    have hall : (f.origin wal ctx).records wal.log = recs ++ ws.map Write.record := by
      rw [Origin.records, FlushRun.drop_registered, List.append_nil]
      show f.scanned.filter (·.revision ≤ f.checkpointRev)
        ++ (scanKvFile wal.contents f.checkpointOffset).1.filter (f.checkpointRev < ·.revision) = _
      rw [hscanned, hrest, hdivides.records]
    rw [hall, hwrote]
  · rw [flushPhase2, foldl_phase2Record_eq] at hctx
    obtain ⟨ctx₀, hctx₀, rfl⟩ := List.mem_map.mp hctx
    -- the offset of the checkpoint is a boundary between records
    have hscan : (scanKvFile wal.contents f.checkpointOffset).1 = after := by
      refine scanKvFile_offset (fun rec hrec => hwf rec ?_) ?_
      · rw [hdivides.records]
        exact List.mem_append_right _ hrec
      · rw [hcontents, hdivides.records, hdivides.offset, serializeAll_append, List.drop_left]
    have hexact : ∀ rec ∈ (scanKvFile wal.contents f.checkpointOffset).1, rec.Exact := by
      intro rec hrec
      rw [hscan] at hrec
      refine (hrecs rec ?_).exact
      rw [hdivides.records]
      exact List.mem_append_right _ hrec
    intro e he
    rcases List.mem_append.mp he with he | he
    · exact hf.named ctx₀ (by rw [hstage]; exact hctx₀) hreply e he
    · exact named_sentAll hexact _ e he

/-- **One step.** Nothing written since the list is lost to the create, as long as the file is not
replaced before the create is registered. -/
theorem Resumes.step {ev : HandoffEvent} (hr : Resumes s recs n ws h) (hpos : 0 < s.nextRev.toNat)
    (hrecs : ∀ rec ∈ recs, rec.Filed s.nextRev.toNat) (hok : h.StepOk ev)
    (hrestart : ∀ now, ev ≠ .server (.restart now))
    (hswap : ev = .server .compactC → n ∈ h.present) (hstep : h.step ev = some h') :
    ∃ vs, Resumes s recs n (ws ++ vs) h' := by
  have hs := hr.bounded.faults
  have hb' := hr.bounded.handoff hok hstep
  have ht' := hr.tracked.step hs hstep
  have hext := Handoff.extends_of_step hr.tracked hs hrestart hstep
  have hfiled := hr.since.filed hrecs
  suffices hsame : (∀ q, ev ≠ .server (.request q)) → Resumes s recs n ws h' by
    by_cases hq : ∃ q, ev = .server (.request q)
    · obtain ⟨q, rfl⟩ := hq
      cases Handoff.moves_of_step hs hstep with
      | @request q vs s' hq hpub =>
          exact ⟨vs, hr.request hpos hpub (fits_of_stepFits hok.1 hq hpub.log) hok.2.2 hb' ht'⟩
    · exact ⟨[], by rw [List.append_nil]; exact hsame fun q hev => hq ⟨q, hev⟩⟩
  intro hnot
  cases Handoff.moves_of_step hs hstep with
  | request => exact absurd rfl (hnot _)
  | cancelWatch =>
      refine
        { bounded := hb', tracked := ht', since := hr.since.quiet (quiet_cancelWatcher _ _)
          watched := ?_, file := hr.file, flush := hr.flush }
      intro p hp hcreate
      rw [Handoff.watched, watched_cancel hr.tracked.length] at hp
      exact hr.watched p (List.mem_filter.mp hp).1 hcreate
  | compactA | compactB | compactFails => exact { hr with bounded := hb', tracked := ht' }
  | compactC =>
      -- the create is registered, so no flush looks for its records any more
      have hpresent := hswap rfl
      refine { hr with
        bounded := hb', tracked := ht', since := { hr.since with }, file := ?_, flush := ?_ }
      · exact fun hn => absurd (hext.awaits hn) (hr.tracked.not_awaits hpresent)
      · intro f' hf' hn
        exact absurd (hext.awaits (.inl (mem_coming_of_flush hf' hn)))
          (hr.tracked.not_awaits hpresent)
  | restart => exact absurd rfl (hrestart _)
  | create =>
      exact { hr with bounded := hb', tracked := ht', file := fun hn => hr.file (hext.awaits hn) }
  | @checkpoint m hnone =>
      refine { hr with
        bounded := hb', tracked := ht', file := fun hn => hr.file (hext.awaits hn), flush := ?_ }
      intro f hf hn
      have hcontents := hr.file (hext.awaits (.inl (mem_coming_of_flush hf hn)))
      cases hf
      have hcurrent := toNat_currentRevision hpos
      have hcurrent' := toNat_currentRevision hr.bounded.nextRev_pos
      have hle := hr.since.nextRev_le
      refine ⟨⟨recs ++ ws.map Write.record, [], ?_⟩, ?_,
        fun _ hctx => absurd hctx List.not_mem_nil⟩
      · refine
          { records := (List.append_nil _).symm
            offset := by rw [← hcontents]
            before_le := ?_
            lt_after := by simp
            checkpoint_lt := by dsimp only; omega
            stage := trivial }
        intro rec hrec
        have hlt := (hfiled rec hrec).revision_lt
        rw [UInt64.le_iff_toNat_le]
        dsimp only
        omega
      · rw [UInt64.le_iff_toNat_le]
        dsimp only
        omega
  | compactRev hf hstage =>
      refine { hr with
        bounded := hb', tracked := ht', file := fun hn => hr.file (hext.awaits hn), flush := ?_ }
      intro f' hf' hn
      cases hf'
      have hbefore := hr.flush _ hf (by rw [hstage]; exact hn)
      exact hbefore.setStage (fun _ _ hd => { hd with stage := trivial })
        fun _ hctx => absurd hctx List.not_mem_nil
  | @refuse f rev c batch active resp hf hstage =>
      refine { hr with
        bounded := hb', tracked := ht', file := fun hn => hr.file (hext.awaits hn), flush := ?_ }
      intro f' hf' hn
      cases hf'
      have hmem : n ∈ f.stage.waiting.map (·.1) := by
        rw [hstage]
        have hsub : (FlushStage.admitting rev batch active).waiting.Sublist
            (FlushStage.admitting rev (c :: batch) active).waiting :=
          (List.Sublist.refl _).append (List.sublist_cons_self _ _)
        exact (hsub.map _).subset hn
      refine (hr.flush _ hf hmem).setStage (fun _ _ hd => { hd with stage := trivial }) ?_
      intro ctx hctx
      rw [hstage]
      exact .inr hctx
  | @admission f rev c batch active ctx hf hstage hctx =>
      refine { hr with
        bounded := hb', tracked := ht', file := fun hn => hr.file (hext.awaits hn), flush := ?_ }
      intro f' hf' hn
      cases hf'
      have hmem : n ∈ f.stage.waiting.map (·.1) := by
        rw [hstage]
        have hsame : (FlushStage.admitting rev batch (active ++ [ctx])).waiting
            = (FlushStage.admitting rev (c :: batch) active).waiting := by
          rw [FlushStage.waiting, FlushStage.waiting, List.map_append, List.map_singleton,
            entry_of_admitCreate hctx, List.map_cons, List.append_assoc]
          rfl
        exact hsame ▸ hn
      refine (hr.flush _ hf hmem).setStage (fun _ _ hd => { hd with stage := trivial }) ?_
      intro ctx' hctx'
      rw [hstage]
      rcases List.mem_append.mp hctx' with hctx' | hctx'
      · exact .inr hctx'
      · rw [List.mem_singleton.mp hctx']
        exact .inl (eventTx_of_admitCreate hctx).1
  | @screen f rev active hf hstage =>
      refine { hr with
        bounded := hb', tracked := ht', file := fun hn => hr.file (hext.awaits hn), flush := ?_ }
      intro f' hf' hn
      dsimp only at hf'
      split at hf'
      · cases hf'
      · cases hf'
        have hmem : n ∈ f.stage.waiting.map (·.1) := by
          obtain ⟨e, he, rfl⟩ := List.mem_map.mp hn
          obtain ⟨ctx, hctx, rfl⟩ := List.mem_map.mp he
          rw [hstage]
          refine List.mem_map_of_mem (List.mem_append_left _ ?_)
          exact List.mem_map_of_mem (mem_of_mem_screenDuplicates hctx)
        refine (hr.flush _ hf hmem).setStage (fun _ _ hd => { hd with stage := trivial }) ?_
        intro ctx hctx
        rw [hstage]
        exact .inr (mem_of_mem_screenDuplicates hctx)
  | @openWal f active hf hstage =>
      refine { hr with
        bounded := hb', tracked := ht', file := fun hn => hr.file (hext.awaits hn), flush := ?_ }
      intro f' hf' hn
      have hcontents := hr.file (hext.awaits (.inl (mem_coming_of_flush hf' hn)))
      cases hf'
      have hmem : n ∈ f.stage.waiting.map (·.1) := by
        rw [hstage]
        exact hn
      refine (hr.flush _ hf hmem).setStage (fun before after hd => { hd with stage := ⟨?_, rfl⟩ })
        ?_
      · rw [hd.offset, hcontents, hd.records, serializeAll_append, List.length_append]
        exact Nat.le_add_right _ _
      · intro ctx hctx
        rw [hstage]
        exact .inr hctx
  | @phase1 f m opened orphan active hf hstage hopened hm =>
      refine { hr with
        bounded := hb', tracked := ht', file := fun hn => hr.file (hext.awaits hn), flush := ?_ }
      intro f' hf' hn
      have hcontents := hr.file (hext.awaits (.inl (mem_coming_of_flush hf' hn)))
      cases hf'
      have hmem : n ∈ f.stage.waiting.map (·.1) := by
        have hentries : n ∈ ((flushPhase1 _ _ _).active.map WatchContext.entry).map (·.1) := hn
        rw [entry_flushPhase1] at hentries
        rw [hstage]
        exact hentries
      exact (hr.flush _ hf hmem).phase1 hfiled hstage hcontents hopened hm
  | @phase2 f st hf hstage =>
      have hentries := entry_flushPhase2 h.sys.store.wal.contents f.checkpointRev
        f.checkpointOffset st
      have hnew : ∀ ctx ∈ (flushPhase2 h.sys.store.wal.contents f.checkpointRev f.checkpointOffset
          st).active, ctx.reply = n → Resumed s ws h.sys.store.wal.log
            (ctx.registration, f.origin h.sys.store.wal ctx) := by
        intro ctx hctx hreply
        have hmem : n ∈ f.stage.waiting.map (·.1) := by
          rw [hstage]
          show n ∈ (st.active.map WatchContext.entry).map (·.1)
          rw [← hentries, ← hreply]
          exact List.mem_map_of_mem (List.mem_map_of_mem hctx)
        exact (hr.flush _ hf hmem).phase2 (hr.since.filter_records hpos hrecs) hfiled hstage
          (hr.file (.inl (mem_coming_of_flush hf hmem))) hctx hreply
      generalize (flushPhase2 h.sys.store.wal.contents f.checkpointRev f.checkpointOffset
        st).active = active at hentries hnew hb' ht' hext ⊢
      have hquiet := quiet_registerAll active h.sys.store
      obtain ⟨hwatched, -⟩ := watched_register hr.tracked hf hstage hentries
      refine
        { bounded := hb', tracked := ht', since := hr.since.quiet hquiet
          watched := ?_, file := ?_, flush := ?_ }
      · intro p hp hcreate
        rw [Handoff.watched] at hp
        dsimp only at hp ⊢
        rw [hwatched, List.mem_append] at hp
        rw [hquiet.wal]
        rcases hp with hp | hp
        · exact hr.watched p hp hcreate
        · obtain ⟨ctx, hctx, rfl⟩ := List.mem_map.mp hp
          exact hnew ctx hctx hcreate
      · intro hn
        rw [hquiet.wal]
        exact hr.file (hext.awaits hn)
      · intro f' hf' hn
        cases hf'
        cases hn
  | reply hf hstage =>
      refine { hr with
        bounded := hb', tracked := ht', file := fun hn => hr.file (hext.awaits hn), flush := ?_ }
      intro f' hf' hn
      dsimp only at hf'
      split at hf'
      · cases hf'
      · cases hf'
        cases hn

omit [LawfulCrates] in
/-- A create that comes after a list has all to come. -/
theorem resumes_start (hb : Bounded h.sys) (ht : Tracked h) (hn : h.issued.length ≤ n) :
    ∃ recs, (∀ rec ∈ recs, rec.Filed h.sys.store.nextRev.toNat) ∧
      Resumes h.sys.store recs n [] h := by
  have hlt : ∀ e ∈ h.registered ++ (h.answering ++ h.waiting), e.1 ≠ n := by
    rintro e he rfl
    exact absurd (List.getElem?_eq_some_iff.mp (ht.ids e he)).1 (Nat.not_lt.mpr hn)
  obtain ⟨recs, hcontents, hrecs⟩ := hb.file
  refine ⟨recs, hrecs, hb, ht, .refl _, ?_, ?_, ?_⟩
  · intro p hp hcreate
    have hmem : (p.2.create, p.1.watchId) ∈ h.registered := List.mem_map_of_mem hp
    exact absurd hcreate (hlt _ (List.mem_append_left _ hmem))
  · intro _
    rw [List.map_nil, List.append_nil]
    exact hcontents
  · intro f hf hmem
    obtain ⟨e, he, heq⟩ := List.mem_map.mp (mem_coming_of_flush hf hmem)
    exact absurd heq (hlt _ (List.mem_append_right _ (List.mem_append_right _ he)))

omit [LawfulCrates] in
/-- **What a watcher from the revision after a list has been sent** is what was written to its range
since. -/
theorem Resumed.changes {log : List KvWalRecord} {p : WatchRegistration × Origin}
    (hr : Resumed s ws log p) (hacc : Account log p.1 p.2) (hfilters : p.1.filters = [])
    (hstart : p.1.startRevision = s.currentRevision + 1)
    (hcount : s.currentRevision.toNat + 1 < 2 ^ 64) :
    p.1.changes
      = changesFor (resolveRange p.1.key p.1.rangeEnd) [] (ws.map Write.record) := by
  have hiff : ∀ rev : UInt64, (p.1.startRevision ≤ rev) = (s.currentRevision < rev) := by
    intro rev
    have hsucc : (s.currentRevision + 1).toNat = s.currentRevision.toNat + 1 := by
      rw [UInt64.toNat_add, show (1 : UInt64).toNat = 1 from rfl, Nat.mod_eq_of_lt hcount]
    rw [hstart, UInt64.le_iff_toNat_le, UInt64.lt_iff_toNat_lt, hsucc]
    exact propext Nat.succ_le_iff
  have hlate : (p.2.scanned₂.filter (p.2.checkpointRev < ·.revision)).filter
      (s.currentRevision < ·.revision) = p.2.scanned₂.filter (p.2.checkpointRev < ·.revision) := by
    refine List.filter_eq_self.mpr fun rec hrec => decide_eq_true ?_
    exact UInt64.lt_of_le_of_lt hr.checkpoint (of_decide_eq_true (List.mem_filter.mp hrec).2)
  rw [hacc.changes, ← hr.records, Origin.records, sentBefore, ← hacc.bound, hfilters]
  simp only [hiff, filter_changesFor _ _ (fun rev => decide (s.currentRevision < rev)),
    List.filter_append, changesFor_append, hlate]

end

/-! ### The server

The same with the streams in front: the channel of the create is read by a forwarder, and the client
reads the stream.
-/

omit [LawfulCrates] in
/-- What happens fits its format, and the counters do not wrap. -/
def Hub.StepOk (hub : Hub) : HubEvent → Prop
  | .handoff ev => hub.handoff.StepOk ev
  | _ => True

instance (hub : Hub) (ev : HubEvent) : Decidable (hub.StepOk ev) :=
  match ev with
  | .handoff ev => inferInstanceAs (Decidable (hub.handoff.StepOk ev))
  | .createRequest _ _ | .cancelRequest _ _ | .drop _ _ | .stream _ _ => .isTrue trivial

/-- Does the event replace the WAL? -/
def HubEvent.isSwap : HubEvent → Bool
  | .handoff (.server .compactC) => true
  | _ => false

/-- The WAL is not replaced before the create is registered. -/
def Hub.Spares (n : Nat) (hub : Hub) (ev : HubEvent) : Prop :=
  ev.isSwap = true → n ∈ hub.handoff.present

instance (n : Nat) (hub : Hub) (ev : HubEvent) : Decidable (hub.Spares n ev) :=
  inferInstanceAs (Decidable (_ → _))

omit [LawfulCrates] in
/-- What an event does to the process behind the streams. -/
theorem Hub.handoff_of_step {hub hub' : Hub} {ev : HubEvent} (hstep : hub.step ev = some hub') :
    hub'.handoff = hub.handoff ∨
      ∃ e, hub.handoff.step e = some hub'.handoff ∧ (∀ now, e ≠ .server (.restart now)) ∧
        (hub.StepOk ev → hub.handoff.StepOk e) ∧ (e = .server .compactC → ev.isSwap = true) := by
  cases Hub.moves_of_step hstep with
  | handoff hev hh' =>
      refine .inr ⟨_, hh', besideStreams_ne_restart hev, id, ?_⟩
      rintro rfl
      rfl
  | createRequest => exact .inr ⟨.create _, rfl, nofun, fun _ => trivial, nofun⟩
  | cancelRequest _ hh' | drop _ hh' =>
      exact .inr ⟨_, hh', nofun, fun _ => ⟨trivial, trivial⟩, nofun⟩
  | stream => exact .inl rfl

/-- What lists and watches rest on in a process. -/
structure Hub.Sound (hub : Hub) : Prop where
  carries : hub.Carries
  accounted : Accounted hub.handoff
  bounded : Bounded hub.handoff.sys

theorem Hub.Sound.step {hub hub' : Hub} {ev : HubEvent} (h : hub.Sound) (hok : hub.StepOk ev)
    (hstep : hub.step ev = some hub') : hub'.Sound := by
  have hcarries := h.carries.step hstep
  rcases Hub.handoff_of_step hstep with heq | ⟨e, he, -, hoke, -⟩
  · exact ⟨hcarries, heq ▸ h.accounted, heq ▸ h.bounded⟩
  · exact ⟨hcarries, h.accounted.step (hoke hok) he, h.bounded.handoff (hoke hok) he⟩

/-- A process that opens the WAL of a server. -/
theorem Hub.sound_start {sys sys₀ : System} (h : Bounded sys) {now : Nat}
    (hboot : System.boot now sys.store.wal.contents = some sys₀) : (Hub.start sys₀).Sound := by
  obtain ⟨s₀, hopen, rfl⟩ := boot_eq_some hboot
  have hb := h.restart hopen
  obtain ⟨_, _, _, _, _, rfl⟩ := openStore_eq_ok hopen
  exact ⟨Hub.carries_start rfl rfl, accounted_start rfl rfl, hb⟩

/-- **One event of the server**, seen from a create that comes after a list. The streams do nothing
to it: what counts is the process behind them. -/
theorem Hub.resumes_step {s : StoreState} {recs : List KvWalRecord} {n : Nat} {ws : List Write}
    {hub hub' : Hub} {ev : HubEvent} (hr : Resumes s recs n ws hub.handoff)
    (hpos : 0 < s.nextRev.toNat) (hrecs : ∀ rec ∈ recs, rec.Filed s.nextRev.toNat)
    (hok : hub.StepOk ev) (hspares : hub.Spares n ev) (hstep : hub.step ev = some hub') :
    ∃ vs, Resumes s recs n (ws ++ vs) hub'.handoff := by
  rcases Hub.handoff_of_step hstep with heq | ⟨e, he, hrestart, hoke, hswap⟩
  · exact ⟨[], by rw [List.append_nil, heq]; exact hr⟩
  · exact hr.step hpos hrecs (hoke hok) hrestart (fun h => hspares (hswap h)) he

/-- A forwarder of an open stream serves a watcher of the range of a list, from the revision after
the one in its header. -/
structure Hub.Follows (hub : Hub) (i : Nat) (f : Forwarder) (req : RangeRequest)
    (resp : RangeResponse) : Prop where
  stream : (hub.streams i).closed = false
  forwarder : f ∈ (hub.streams i).forwarders
  /-- The client can tell its events by their id. -/
  unique : ∀ g ∈ (hub.streams i).forwarders, g.watchId = f.watchId → g.create = f.create
  watcher : ∃ p ∈ hub.handoff.watched, p.2.create = f.create ∧ p.1.key = req.key ∧
    p.1.rangeEnd = req.rangeEnd ∧ p.1.filters = [] ∧
    p.1.startRevision = resp.header.revision.toUInt64 + 1

/-- **List, then watch**, in a process that started from what the server left on disk. A client
lists a range; then it creates a watcher of the range from the revision after the list, and the WAL
is not replaced before that watcher is registered. The events of its watcher that are on its stream
are always a prefix of what was written to the range since the list, deletions included, each once
and in order. Once its forwarder is not behind, the copy that the client keeps by them is the range
as it is in the store. -/
theorem list_then_watch {evs₀ : List Event} {sys sys₀ : System}
    (hrun₀ : System.run ⟨fresh, none⟩ evs₀ = some sys)
    (hok₀ : Trace.Along System.step System.StepOk ⟨fresh, none⟩ evs₀) {now : Nat}
    (hboot : System.boot now sys.store.wal.contents = some sys₀) {evs₁ evs₂ : List HubEvent}
    {hub₁ hub : Hub} (hrun₁ : (Hub.start sys₀).run evs₁ = some hub₁)
    (hok₁ : Trace.Along Hub.step Hub.StepOk (Hub.start sys₀) evs₁) {req : RangeRequest}
    (hlists : req.Lists) (hsize : hub₁.handoff.sys.store.keys.size ≤ 2 ^ 32)
    {resp : RangeResponse} (hresp : range hub₁.handoff.sys.store req = .ok resp)
    {f : Forwarder} (hafter : hub₁.handoff.issued.length ≤ f.create)
    (hrun₂ : hub₁.run evs₂ = some hub)
    (hok₂ : Trace.Along Hub.step (fun hub ev => hub.StepOk ev ∧ hub.Spares f.create ev) hub₁ evs₂)
    {i : Nat} (hfollows : hub.Follows i f req resp) :
    ∃ ws, WroteSince hub₁.handoff.sys.store ws hub.handoff.sys.store ∧
      (eventsFor f.watchId (hub.streams i).out).map WatchEvent.change
        <+: changesFor (resolveRange req.key req.rangeEnd) [] (ws.map Write.record) ∧
      (f.isDrained (hub.channels f.create) = true →
        (resp.replica.receiveAll (messagesFor f.watchId (hub.streams i).out)).Shows
          (resolveRange req.key req.rangeEnd) hub.handoff.sys.store) := by
  have hbounded : Bounded sys :=
    Trace.invariant (fun _ _ _ hb hok hstep => hb.step hok hstep) bounded_fresh hok₀ hrun₀
  have hsound₁ : hub₁.Sound :=
    Trace.invariant (fun _ _ _ h hok hstep => h.step hok hstep)
      (Hub.sound_start hbounded hboot) hok₁ hrun₁
  have hpos := hsound₁.bounded.nextRev_pos
  obtain ⟨recs, hrecs, hstart⟩ :=
    resumes_start hsound₁.bounded hsound₁.carries.wired.tracked hafter
  -- the run after the list
  have hinv := Trace.invariant
    (fun hub ev hub' (hinv : hub.Sound ∧
        ∃ ws, Resumes hub₁.handoff.sys.store recs f.create ws hub.handoff) hok hstep => by
      obtain ⟨hsound, ws, hr⟩ := hinv
      obtain ⟨vs, hr'⟩ := Hub.resumes_step hr hpos hrecs hok.1 hok.2 hstep
      exact (⟨hsound.step hok.1 hstep, ws ++ vs, hr'⟩ : hub'.Sound ∧
        ∃ ws, Resumes hub₁.handoff.sys.store recs f.create ws hub'.handoff))
    ⟨hsound₁, [], hstart⟩ hok₂ hrun₂
  obtain ⟨hsound, ws, hr⟩ := hinv
  obtain ⟨p, hp, hcreate, hkey, hend, hfilters, hrevision⟩ := hfollows.watcher
  obtain ⟨hheader, -⟩ := hlists.kvs_perm hsize hresp
  have hcurrent := toNat_currentRevision hpos
  have hcount : hub₁.handoff.sys.store.currentRevision.toNat + 1 < 2 ^ 64 := by
    rw [hcurrent]
    exact hub₁.handoff.sys.store.nextRev.toNat_lt
  -- the channel of the watcher
  have hresumed := hr.watched p hp hcreate
  have hsender : hub.channels f.create = p.1.sender := by
    rw [← hcreate]
    exact hsound.carries.wired.channels p hp
  have hchanges : (hub.channels f.create).map WatchEvent.change
      = changesFor (resolveRange req.key req.rangeEnd) [] (ws.map Write.record) := by
    rw [hsender, ← hkey, ← hend]
    refine hresumed.changes (hsound.accounted.watched p hp) hfilters ?_ hcount
    rw [hrevision, hheader]
    rfl
  have hout := (hsound.carries.streams i).eventsFor_eq hfollows.stream hfollows.forwarder
    hfollows.unique
  refine ⟨ws, hr.since, ?_, fun hdrained => ?_⟩
  · rw [hout, ← hchanges]
    exact (List.take_prefix _ _).map _
  · obtain ⟨hlength, hforwarding⟩ := Forwarder.isDrained_iff.mp hdrained
    have hall : f.delivered hub.channels = hub.channels f.create := by
      rw [Forwarder.delivered, Forwarder.done_eq hforwarding, List.take_of_length_le hlength]
    have hnonzero : ∀ w ∈ ws, w.rev ≠ 0 := by
      intro w hw hzero
      have hle := hr.since.le_rev w hw
      rw [hzero] at hle
      exact absurd hle (Nat.not_le.mpr hpos)
    rw [messagesFor_eq, hout, hall]
    refine (hlists.shows hsound₁.bounded.blobs hsize hresp).run hr.since.run hr.since.fits hnonzero
      ?_ hchanges
    rw [hsender]
    exact hresumed.named

end

/-- A key is updated after the list, and one is deleted while the create is in its flush; then the
WAL is replaced, and a third key is put. -/
def listThenWatch : List HubEvent :=
  [.handoff (.server (.request (.put { key := [1], value := [4] }))),
    .createRequest 0 { key := [0], rangeEnd := [0], startRevision := 3, watchId := 5 },
    .handoff (.checkpoint 1), .handoff .compactRev, .handoff .admission, .handoff .screen,
    .handoff (.server (.request (.deleteRange { key := [2] }))), .handoff .openWal,
    .handoff (.phase1 176), .handoff .phase2, .handoff .reply, .stream 0 .replied, .stream 0 .send,
    .handoff (.server .compactA), .handoff (.server .compactB), .handoff (.server .compactC),
    .handoff (.server (.request (.put { key := [3], value := [3] }))), .stream 0 (.recv 0),
    .stream 0 (.forward 0), .stream 0 (.recv 0), .stream 0 (.forward 0), .stream 0 (.recv 0),
    .stream 0 (.forward 0)]

theorem list_then_watch_busy :
    ∃ sys sys₀ resp hub,
      System.run ⟨fresh, none⟩ [.request (.put { key := [1], value := [1] }),
        .request (.put { key := [2], value := [2] })] = some sys ∧
      System.boot 0 sys.store.wal.contents = some sys₀ ∧
      range sys₀.store { key := [0], rangeEnd := [0] } = .ok resp ∧
      (Hub.start sys₀).run listThenWatch = some hub ∧ resp.replica.keys = [[1], [2]] ∧
      (eventsFor 5 (hub.streams 0).out).map WatchEvent.revision = [3, 4, 5] ∧
      (resp.replica.receiveAll (messagesFor 5 (hub.streams 0).out)).keys = [[1], [3]] ∧
      (resp.replica.receiveAll (messagesFor 5 (hub.streams 0).out)).Shows
        (resolveRange [0] [0]) hub.handoff.sys.store := by
  have hrun : (System.run ⟨fresh, none⟩ [.request (.put { key := [1], value := [1] }),
      .request (.put { key := [2], value := [2] })]).any (fun sys =>
        (System.boot 0 sys.store.wal.contents).any fun sys₀ =>
          (range sys₀.store { key := [0], rangeEnd := [0] }).toOption.any fun resp =>
            ((Hub.start sys₀).run listThenWatch).any fun hub =>
              (hub.streams 0).forwarders.any fun f => decide ((
                (hub.streams 0).closed = false ∧
                (∀ g ∈ (hub.streams 0).forwarders, g.watchId = f.watchId → g.create = f.create) ∧
                ∃ p ∈ hub.handoff.watched, p.2.create = f.create ∧ p.1.key = [0] ∧
                  p.1.rangeEnd = [0] ∧ p.1.filters = [] ∧
                  p.1.startRevision = resp.header.revision.toUInt64 + 1) ∧
                Trace.Along Hub.step (fun hub ev => hub.StepOk ev ∧ hub.Spares f.create ev)
                  (Hub.start sys₀) listThenWatch ∧
                sys₀.store.keys.size ≤ 2 ^ 32 ∧ f.isDrained (hub.channels f.create) = true ∧
                f.watchId = 5 ∧ resp.replica.keys = [[1], [2]] ∧
                (eventsFor 5 (hub.streams 0).out).map WatchEvent.revision = [3, 4, 5] ∧
                (resp.replica.receiveAll (messagesFor 5 (hub.streams 0).out)).keys = [[1], [3]]))
      = true := by
    decide +kernel
  obtain ⟨sys, hsys, hrun⟩ := (Option.any_eq_true _ _).mp hrun
  obtain ⟨sys₀, hboot, hrun⟩ := (Option.any_eq_true _ _).mp hrun
  obtain ⟨resp, hresp, hrun⟩ := (Option.any_eq_true _ _).mp hrun
  obtain ⟨hub, hhub, hrun⟩ := (Option.any_eq_true _ _).mp hrun
  obtain ⟨f, hf, hfacts⟩ := List.any_eq_true.mp hrun
  obtain ⟨⟨hopen, hunique, hwatcher⟩, hok, hsize, hdrained, hid, hkeys, hevents, hcopy⟩ :=
    of_decide_eq_true hfacts
  have hresp := Prog.ok_of_toOption hresp
  have hnone : (Hub.start sys₀).run [] = some (Hub.start sys₀) := rfl
  obtain ⟨_, -, -, hshows⟩ := list_then_watch hsys (by decide +kernel) hboot hnone trivial
    ⟨by decide, by decide, rfl, rfl, by decide⟩ hsize hresp (Nat.zero_le _) hhub hok
    ⟨hopen, hf, hunique, hwatcher⟩
  rw [hid] at hshows
  exact ⟨sys, sys₀, resp, hub, hsys, hboot, hresp, hhub, hkeys, hevents, hcopy, hshows hdrained⟩

end Rudurru
