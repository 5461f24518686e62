import Rudurru.Server.HandoffSound

/-!
# Rudurru.Server.ExactlyOnce

**Every update reaches a watcher once.** Without compaction the two scans of a flush and live
notification read every record of the WAL between them, each once (`handoff_exactly_once`).

A compaction replaces the file under the byte offset of the checkpoint. The same then holds of the
records committed since the checkpoint as long as phase 2 finds them where they were
(`handoff_survives_swap`), and not when it does not (`swap_loses_event`).

Neither proof looks at events. `Server.HandoffSound` says what a watcher was sent in terms of the
records behind it, so it is enough to know which records these are. Without compaction they are all
the records of the file (`Complete`): a flush divides them at its checkpoint, phase 1 reads at least
the first part and keeps no more of it, and phase 2 finds the second part at the offset
(`FlushRun.Divides`). With compaction the first part may be gone, and the statement is about what
was committed after the checkpoint (`Seamless`).
-/

namespace Rudurru

section

variable [Crates] [LawfulCrates]

/-! ### Without compaction

The file is only appended to, so an offset keeps its meaning and a flush loses nothing.
-/

/-- A flush divides the records of the file at its checkpoint: phase 1 has read the first part, and
phase 2 will find the second. -/
structure FlushRun.Divides (f : FlushRun) (nextRev : UInt64)
    (recs before after : List KvWalRecord) : Prop where
  records : recs = before ++ after
  offset : f.checkpointOffset = (serializeAll before).length
  before_le : ∀ rec ∈ before, rec.revision ≤ f.checkpointRev
  lt_after : ∀ rec ∈ after, f.checkpointRev < rec.revision
  checkpoint_lt : f.checkpointRev.toNat < nextRev.toNat
  stage : match f.stage with
    | .scanning opened orphan _ => f.checkpointOffset ≤ opened ∧ orphan = none
    | .catchingUp _ => f.scanned.filter (·.revision ≤ f.checkpointRev) = before
    | _ => True

/-- The scans behind every watcher, and what was appended since, are the records of the file. -/
structure Complete (recs : List KvWalRecord) (h : Handoff) : Prop where
  contents : h.sys.store.wal.contents = serializeAll recs
  wellFormed : ∀ rec ∈ recs, rec.WellFormed
  appended : ∃ old, recs = old ++ h.sys.store.wal.log
  nextRev_pos : 0 < h.sys.store.nextRev.toNat
  lt : ∀ rec ∈ recs, rec.revision.toNat < h.sys.store.nextRev.toNat
  origins : ∀ o ∈ h.origins, o.registered ≤ h.sys.store.wal.log.length ∧
    o.records h.sys.store.wal.log = recs
  flush : ∀ f ∈ h.flush, ∃ before after, f.Divides h.sys.store.nextRev recs before after

omit [LawfulCrates] in
theorem complete_start {recs : List KvWalRecord} (hwf : ∀ rec ∈ recs, rec.WellFormed)
    (hrev : ∀ rec ∈ recs, rec.revision.toNat + 1 < 2 ^ 64) {now : Nat} {s : StoreState}
    (hopen : openStore now (serializeAll recs) = .ok s) :
    Complete recs (.start { store := s, compaction := none }) := by
  obtain ⟨recs', n, K, hscan, -, rfl⟩ := openStore_eq_ok hopen
  rw [scanKvFile_serializeAll hwf] at hscan
  obtain ⟨rfl, -⟩ := Prod.mk.inj hscan
  obtain ⟨hpos, hlt⟩ := opened_lt hrev now (serializeAll recs) K
  exact
    { contents := rfl
      wellFormed := hwf
      appended := ⟨recs, by simp [Handoff.start, WalFile.open]⟩
      nextRev_pos := hpos
      lt := hlt
      origins := by simp [Handoff.start]
      flush := by simp [Handoff.start] }

omit [Crates] [LawfulCrates] in
/-- Records appended later stand behind the checkpoint. -/
theorem FlushRun.Divides.append {f : FlushRun} {nextRev nextRev' : UInt64}
    {recs before after news : List KvWalRecord} (h : f.Divides nextRev recs before after)
    (hle : nextRev.toNat ≤ nextRev'.toNat) (hnews : ∀ rec ∈ news, rec.revision = nextRev) :
    f.Divides nextRev' (recs ++ news) before (after ++ news) where
  records := by rw [h.records, List.append_assoc]
  offset := h.offset
  before_le := h.before_le
  lt_after := by
    intro rec hrec
    rcases List.mem_append.mp hrec with hrec | hrec
    · exact h.lt_after rec hrec
    · rw [hnews rec hrec, UInt64.lt_iff_toNat_lt]
      exact h.checkpoint_lt
  checkpoint_lt := Nat.lt_of_lt_of_le h.checkpoint_lt hle
  stage := h.stage

omit [LawfulCrates] in
/-- A scan of phase 1 reads at least what was there at the checkpoint. -/
theorem FlushRun.Divides.scan₁ {f : FlushRun} {nextRev : UInt64}
    {recs before after : List KvWalRecord} (h : f.Divides nextRev recs before after)
    (hwf : ∀ rec ∈ recs, rec.WellFormed) {n : Nat} (hn : f.checkpointOffset ≤ n)
    (hle : n ≤ (serializeAll recs).length) :
    (scanKvFile ((serializeAll recs).take n) 0).1.filter (·.revision ≤ f.checkpointRev)
      = before := by
  obtain ⟨hrecs, hoffset, hbefore, hafter, -, -⟩ := h
  subst hrecs
  rw [hoffset] at hn
  exact filter_scanKvFile_take hwf hbefore hafter hn hle

omit [LawfulCrates] in
/-- Phase 2 reads the rest. -/
theorem FlushRun.Divides.scan₂ {f : FlushRun} {nextRev : UInt64}
    {recs before after : List KvWalRecord} (h : f.Divides nextRev recs before after)
    (hwf : ∀ rec ∈ recs, rec.WellFormed) :
    (scanKvFile (serializeAll recs) f.checkpointOffset).1.filter (f.checkpointRev < ·.revision)
      = after := by
  obtain ⟨hrecs, hoffset, -, hafter, -, -⟩ := h
  subst hrecs
  rw [hoffset]
  exact filter_scanKvFile_offset hwf hafter

/-- The file, as long as it is only appended to. -/
theorem Complete.published {recs : List KvWalRecord} {h : Handoff} (hc : Complete recs h)
    {s' : StoreState} {ws : List Write} (hpub : Published h.sys.store ws s')
    (hfit : ∀ w ∈ ws, w.record.Fits) (hcounts : h.sys.store.nextRev.toNat + 1 < 2 ^ 64) :
    Complete (recs ++ ws.map Write.record) { h with sys := { h.sys with store := s' } } := by
  obtain ⟨hle, hle', hnew⟩ := hpub.toServed.toNat_nextRev hcounts
  have hrev : ∀ rec ∈ ws.map Write.record, rec.revision = h.sys.store.nextRev := by
    intro rec hrec
    obtain ⟨w, hw, rfl⟩ := List.mem_map.mp hrec
    rw [(Write.record_spec (hfit w hw)).2.2, hpub.rev_eq w hw]
  refine
    { contents := by rw [hpub.contents, hc.contents, serializeAll_append]
      wellFormed := ?_
      appended := ?_
      nextRev_pos := Nat.lt_of_lt_of_le hc.nextRev_pos hle
      lt := ?_
      origins := ?_
      flush := ?_ }
  · intro rec hrec
    rcases List.mem_append.mp hrec with hrec | hrec
    · exact hc.wellFormed rec hrec
    · obtain ⟨w, hw, rfl⟩ := List.mem_map.mp hrec
      exact (Write.record_spec (hfit w hw)).1
  · obtain ⟨old, hold⟩ := hc.appended
    exact ⟨old, by rw [hold, hpub.log, List.append_assoc]⟩
  · intro rec hrec
    rcases List.mem_append.mp hrec with hrec | hrec
    · exact Nat.lt_of_lt_of_le (hc.lt rec hrec) hle
    · obtain ⟨w, hw, rfl⟩ := List.mem_map.mp hrec
      have hnext := (hnew w hw).2
      rw [hrev _ hrec]
      dsimp only
      omega
  · -- what a watcher has seen grows by what it is notified of, as the log does
    intro o ho
    obtain ⟨hregistered, hsum⟩ := hc.origins o ho
    rw [hpub.log]
    refine ⟨by rw [List.length_append]; omega, ?_⟩
    rw [Origin.records_append hregistered, hsum]
  · intro f hf
    obtain ⟨before, after, hdivides⟩ := hc.flush f hf
    exact ⟨before, _, hdivides.append hle hrev⟩

/-- **One step of a run without compaction keeps the file complete.** The steps of a flush read the
file, a request appends to it; neither changes what was there. -/
theorem Complete.step {h h' : Handoff} {ev : HandoffEvent} {recs : List KvWalRecord}
    (hc : Complete recs h) (hs : h.sys.store.wal.faults = []) (hok : h.StepOk ev)
    (hswap : ev ≠ .server .compactC) (hstep : h.step ev = some h') :
    ∃ recs', Complete recs' h' := by
  cases Handoff.moves_of_step hs hstep with
  | @request q ws s' hq hpub =>
      exact ⟨_, hc.published hpub (fits_of_stepFits hok.1 hq hpub.log) hok.2.2⟩
  | cancelWatch =>
      exact ⟨recs, { hc with origins := fun o ho => hc.origins o (mem_origins_of_cancel ho) }⟩
  | compactA | compactB | compactFails => exact ⟨recs, { hc with }⟩
  | compactC => exact absurd rfl hswap
  | restart hopen =>
      rw [hc.contents] at hopen
      refine ⟨recs, complete_start hc.wellFormed ?_ hopen⟩
      intro rec hrec
      have hlt := hc.lt rec hrec
      have hnext := h.sys.store.nextRev.toNat_lt
      omega
  | create => exact ⟨recs, { hc with }⟩
  | checkpoint =>
      refine ⟨recs, { hc with flush := ?_ }⟩
      intro f hf
      cases hf
      -- every record is before the checkpoint, and nothing is after it yet
      have hcur := toNat_currentRevision hc.nextRev_pos
      refine ⟨recs, [],
        { records := (List.append_nil recs).symm
          offset := by rw [← hc.contents]
          before_le := ?_
          lt_after := by simp
          checkpoint_lt := by dsimp only; omega
          stage := trivial }⟩
      intro rec hrec
      have hlt := hc.lt rec hrec
      rw [UInt64.le_iff_toNat_le]
      dsimp only
      omega
  | compactRev hf | refuse hf | admission hf =>
      refine ⟨recs, { hc with flush := ?_ }⟩
      intro f' hf'
      cases hf'
      obtain ⟨before, after, hdivides⟩ := hc.flush _ hf
      exact ⟨before, after, { hdivides with stage := trivial }⟩
  | screen hf | reply hf =>
      refine ⟨recs, { hc with flush := ?_ }⟩
      intro f' hf'
      obtain ⟨before, after, hdivides⟩ := hc.flush _ hf
      dsimp only at hf'
      split at hf'
      · cases hf'
      · cases hf'
        exact ⟨before, after, { hdivides with stage := trivial }⟩
  | openWal hf hstage =>
      refine ⟨recs, { hc with flush := ?_ }⟩
      intro f' hf'
      cases hf'
      obtain ⟨before, after, hdivides⟩ := hc.flush _ hf
      refine ⟨before, after, { hdivides with stage := ⟨?_, rfl⟩ }⟩
      -- the file only grew since the checkpoint, so its offset is still inside
      rw [hdivides.offset, hc.contents, hdivides.records, serializeAll_append, List.length_append]
      omega
  | phase1 hf hstage hopened hn =>
      refine ⟨recs, { hc with flush := ?_ }⟩
      intro f' hf'
      cases hf'
      obtain ⟨before, after, hdivides⟩ := hc.flush _ hf
      have hscanning := hdivides.stage
      rw [hstage] at hscanning
      obtain ⟨hoffset, rfl⟩ := hscanning
      rw [Option.getD_none, hc.contents] at hn
      refine ⟨before, after, { hdivides with stage := ?_ }⟩
      rw [Option.getD_none, hc.contents]
      -- phase 1 may stop in the middle of a later record: it keeps those up to the checkpoint
      exact hdivides.scan₁ hc.wellFormed (Nat.le_trans hoffset hopened) hn
  | @phase2 f st hf hstage =>
      obtain ⟨before, after, hdivides⟩ := hc.flush _ hf
      have hscanned := hdivides.stage
      rw [hstage] at hscanned
      generalize (flushPhase2 h.sys.store.wal.contents f.checkpointRev f.checkpointOffset
        st).active = active
      have hquiet := quiet_registerAll active h.sys.store
      refine ⟨recs,
        { contents := by rw [hquiet.wal]; exact hc.contents
          wellFormed := hc.wellFormed
          appended := by rw [hquiet.wal]; exact hc.appended
          nextRev_pos := by rw [hquiet.nextRev]; exact hc.nextRev_pos
          lt := by rw [hquiet.nextRev]; exact hc.lt
          origins := ?_
          flush := ?_ }⟩
      · intro o ho
        rw [hquiet.wal]
        rcases List.mem_append.mp ho with ho | ho
        · exact hc.origins o ho
        · obtain ⟨ctx, -, rfl⟩ := List.mem_map.mp ho
          refine ⟨Nat.le_refl _, ?_⟩
          -- phase 2 reads what phase 1 left out, so the two parts make the whole file
          have hrest := hdivides.scan₂ hc.wellFormed
          rw [← hc.contents] at hrest
          have hsum : f.scanned.filter (·.revision ≤ f.checkpointRev)
              ++ (scanKvFile h.sys.store.wal.contents f.checkpointOffset).1.filter
                (f.checkpointRev < ·.revision)
              ++ h.sys.store.wal.log.drop h.sys.store.wal.log.length = recs := by
            rw [hscanned, hrest, List.drop_length, List.append_nil, hdivides.records]
          exact hsum
      · intro f' hf'
        cases hf'
        rw [hquiet.nextRev]
        exact ⟨before, after, { hdivides with stage := trivial }⟩

end

section

variable [Crates]

/-- A flush that a compaction has overtaken still finds the records committed since its checkpoint
from its byte offset on; and the revision counter has not wrapped to 0. -/
def Handoff.StepInPlace (h : Handoff) : HandoffEvent → Prop
  | .checkpoint _ => h.sys.store.nextRev ≠ 0
  | .phase2 => ∀ f ∈ h.flush, f.swapped = true →
      h.sys.store.wal.contents.drop f.checkpointOffset
        = serializeAll (h.sys.store.wal.log.drop f.position)
  | _ => True

instance (h : Handoff) (ev : HandoffEvent) : Decidable (h.StepInPlace ev) :=
  match ev with
  | .checkpoint _ => inferInstanceAs (Decidable (h.sys.store.nextRev ≠ 0))
  | .phase2 => inferInstanceAs (Decidable (∀ f ∈ h.flush, _ → _))
  | .server _ | .create _ | .compactRev | .admission | .screen | .openWal | .phase1 _ | .reply =>
      .isTrue trivial

/-- What was appended from a position on is beyond a revision, and will be. -/
structure After (rev : UInt64) (position : Nat) (log : List KvWalRecord) (nextRev : UInt64) :
    Prop where
  position_le : position ≤ log.length
  rev_lt : rev.toNat < nextRev.toNat
  lt : ∀ rec ∈ log.drop position, rev < rec.revision

/-- Phase 2 and live notification have covered the records committed since the checkpoint. -/
structure Origin.Follows (o : Origin) (log : List KvWalRecord) (nextRev : UInt64) : Prop where
  after : After o.checkpointRev o.position log nextRev
  registered_le : o.registered ≤ log.length
  records : o.scanned₂.filter (o.checkpointRev < ·.revision) ++ log.drop o.registered
    = log.drop o.position

/-- Nothing committed since the checkpoint is missing behind any watcher. -/
structure Seamless (h : Handoff) : Prop where
  origins : ∀ o ∈ h.origins, o.Follows h.sys.store.wal.log h.sys.store.nextRev
  flush : ∀ f ∈ h.flush,
    After f.checkpointRev f.position h.sys.store.wal.log h.sys.store.nextRev

omit [Crates] in
theorem seamless_start (sys : System) : Seamless (.start sys) where
  origins := by simp [Handoff.start]
  flush := by simp [Handoff.start]

variable [LawfulCrates]

theorem After.published {rev : UInt64} {position : Nat} {s s' : StoreState} {ws : List Write}
    (h : After rev position s.wal.log s.nextRev) (hpub : Published s ws s')
    (hfit : ∀ w ∈ ws, w.record.Fits) (hcounts : s.nextRev.toNat + 1 < 2 ^ 64) :
    After rev position s'.wal.log s'.nextRev where
  position_le := by
    rw [hpub.log, List.length_append]
    exact Nat.le_add_right_of_le h.position_le
  rev_lt := Nat.lt_of_lt_of_le h.rev_lt (hpub.toServed.toNat_nextRev hcounts).1
  lt := by
    intro rec hrec
    rw [hpub.log, List.drop_append_of_le_length h.position_le] at hrec
    rcases List.mem_append.mp hrec with hrec | hrec
    · exact h.lt rec hrec
    · obtain ⟨w, hw, rfl⟩ := List.mem_map.mp hrec
      rw [(Write.record_spec (hfit w hw)).2.2, hpub.rev_eq w hw, UInt64.lt_iff_toNat_lt]
      exact h.rev_lt

/-- The writes of a request are still to be found by a flush, and are notified to every watcher. -/
theorem Seamless.published {h : Handoff} (hseam : Seamless h) {s' : StoreState} {ws : List Write}
    (hpub : Published h.sys.store ws s') (hfit : ∀ w ∈ ws, w.record.Fits)
    (hcounts : h.sys.store.nextRev.toNat + 1 < 2 ^ 64) :
    Seamless { h with sys := { h.sys with store := s' } } where
  origins := by
    intro o ho
    obtain ⟨hafter, hregistered, hrecords⟩ := hseam.origins o ho
    refine ⟨hafter.published hpub hfit hcounts, ?_, ?_⟩
    · rw [hpub.log, List.length_append]
      exact Nat.le_add_right_of_le hregistered
    · rw [hpub.log, List.drop_append_of_le_length hregistered,
        List.drop_append_of_le_length hafter.position_le, ← List.append_assoc, hrecords]
  flush := fun f hf => (hseam.flush f hf).published hpub hfit hcounts

/-- **One step keeps the hand-off seamless**, if phase 2 finds what it looks for. Only phase 2 uses
the condition, and only when a compaction has overtaken the flush. -/
theorem Seamless.step {h h' : Handoff} {ev : HandoffEvent} (hseam : Seamless h)
    (hs : h.sys.store.wal.faults = []) (hplaced : Placed h) (hok : h.StepOk ev)
    (hplace : h.StepInPlace ev) (hstep : h.step ev = some h') : Seamless h' := by
  cases Handoff.moves_of_step hs hstep with
  | @request q ws s' hq hpub =>
      exact hseam.published hpub (fits_of_stepFits hok.1 hq hpub.log) hok.2.2
  | cancelWatch =>
      exact { hseam with origins := fun o ho => hseam.origins o (mem_origins_of_cancel ho) }
  | compactA | compactB | compactFails | create => exact { hseam with }
  | compactC =>
      -- the log and the counter are what they were
      refine { hseam with flush := ?_ }
      intro f' hf'
      obtain ⟨f, hf, rfl⟩ := Option.map_eq_some_iff.mp hf'
      exact hseam.flush f hf
  | restart => exact seamless_start _
  | checkpoint =>
      refine { hseam with flush := ?_ }
      intro f hf
      cases hf
      have hpos : 0 < h.sys.store.nextRev.toNat :=
        Nat.pos_of_ne_zero fun hzero => hplace (UInt64.toNat_inj.mp hzero)
      have hcur := toNat_currentRevision hpos
      refine ⟨Nat.le_refl _, ?_, by simp⟩
      dsimp only
      omega
  | compactRev hf | refuse hf | admission hf | openWal hf | phase1 hf =>
      refine { hseam with flush := ?_ }
      intro f' hf'
      cases hf'
      have hafter := hseam.flush _ hf
      exact hafter
  | screen hf | reply hf =>
      refine { hseam with flush := ?_ }
      intro f' hf'
      dsimp only at hf'
      split at hf'
      · cases hf'
      · cases hf'
        have hafter := hseam.flush _ hf
        exact hafter
  | @phase2 f st hf hstage =>
      have hafter := hseam.flush f hf
      have hscan := hplaced.scan hf (hplace f hf)
      generalize (flushPhase2 h.sys.store.wal.contents f.checkpointRev f.checkpointOffset
        st).active = active
      have hquiet := quiet_registerAll active h.sys.store
      refine ⟨?_, ?_⟩
      · intro o ho
        rw [hquiet.wal, hquiet.nextRev]
        rcases List.mem_append.mp ho with ho | ho
        · exact hseam.origins o ho
        · obtain ⟨ctx, -, rfl⟩ := List.mem_map.mp ho
          refine ⟨hafter, Nat.le_refl _, ?_⟩
          rw [FlushRun.drop_registered, List.append_nil]
          calc (scanKvFile h.sys.store.wal.contents f.checkpointOffset).1.filter
                (f.checkpointRev < ·.revision)
              = (h.sys.store.wal.log.drop f.position).filter (f.checkpointRev < ·.revision) := by
                rw [hscan]
            _ = h.sys.store.wal.log.drop f.position :=
                List.filter_eq_self.mpr fun rec hrec => decide_eq_true (hafter.lt rec hrec)
      · intro f' hf'
        cases hf'
        rw [hquiet.wal, hquiet.nextRev]
        exact hafter

/-- **A hand-off survives the compactions that leave its records in place.** In every run in which
phase 2 finds the records committed since the checkpoint from the checkpoint's offset on, they
reach every watcher that wants them once and in the order in which they were committed. -/
theorem handoff_survives_swap {now : Nat} {contents : Bytes} {sys₀ : System}
    (hboot : System.boot now contents = some sys₀) {evs : List HandoffEvent} {h : Handoff}
    (hrun : (Handoff.start sys₀).run evs = some h)
    (hok : Trace.Along Handoff.step (fun h ev => h.StepOk ev ∧ h.StepInPlace ev) (.start sys₀)
      evs) :
    ∀ p ∈ h.watched,
      p.1.changes.filter (fun c => p.2.checkpointRev < c.revision ∧ p.1.startRevision ≤ c.revision)
        = (changesFor (resolveRange p.1.key p.1.rangeEnd) p.1.filters
            (h.sys.store.wal.log.drop p.2.position)).filter (p.1.startRevision ≤ ·.revision) := by
  obtain ⟨s₀, hopen, rfl⟩ := boot_eq_some hboot
  have hstart : Accounted (.start ⟨s₀, none⟩) ∧ Placed (.start ⟨s₀, none⟩)
      ∧ Seamless (.start ⟨s₀, none⟩) := by
    obtain ⟨_, _, _, _, _, rfl⟩ := openStore_eq_ok hopen
    exact ⟨accounted_start rfl rfl, placed_start rfl, seamless_start _⟩
  have hinv := Trace.invariant
    (fun h ev h' (hinv : Accounted h ∧ Placed h ∧ Seamless h) hev hstep => by
      obtain ⟨hacc, hplaced, hseam⟩ := hinv
      exact ⟨hacc.step hev.1 hstep, hplaced.step hacc.faults hev.1 hstep,
        hseam.step hacc.faults hplaced hev.1 hev.2 hstep⟩)
    hstart hok hrun
  obtain ⟨hacc, -, hseam⟩ := hinv
  intro p hp
  have haccount := hacc.watched p hp
  obtain ⟨hafter, -, hrecords⟩ := hseam.origins p.2 (List.of_mem_zip hp).2
  -- what comes through the channel lies beyond the checkpoint
  have hbeyond : ∀ c ∈ changesFor p.1.bound p.1.filters (h.sys.store.wal.log.drop p.2.position),
      p.2.checkpointRev < c.revision := by
    intro c hc
    obtain ⟨rec, hrec, hrev⟩ := exists_record_of_mem_changesFor hc
    rw [← hrev]
    exact hafter.lt rec hrec
  -- what the first scan sent does not, so the filter for what lies beyond drops all of it
  have hbefore : (sentBefore p.1.startRevision p.2.checkpointRev p.1.bound p.1.filters
      p.2.scanned₁).filter (fun c => p.2.checkpointRev < c.revision
        ∧ p.1.startRevision ≤ c.revision) = [] := by
    refine List.filter_eq_nil_iff.mpr ?_
    intro c hc
    obtain ⟨rec, hrec, hrev⟩ := exists_record_of_mem_changesFor (List.mem_filter.mp hc).1
    have hle := of_decide_eq_true (List.mem_filter.mp hrec).2
    rw [hrev] at hle
    simp [UInt64.not_lt.mpr hle]
  rw [haccount.changes, ← haccount.bound, List.append_assoc, List.filter_append, hbefore,
    List.nil_append]
  rw [← hrecords, changesFor_append] at hbeyond ⊢
  have hsame : ∀ l : List Change, (∀ c ∈ l, p.2.checkpointRev < c.revision) →
      l.filter (fun c => p.2.checkpointRev < c.revision ∧ p.1.startRevision ≤ c.revision)
        = l.filter (p.1.startRevision ≤ ·.revision) := by
    intro l hl
    refine List.filter_congr ?_
    intro c hc
    simp [hl c hc]
  rw [hsame, List.filter_append, List.filter_append, List.filter_filter]
  · simp only [Bool.and_self]
  · intro c hc
    refine hbeyond c (List.mem_append.mpr ?_)
    rcases List.mem_append.mp hc with hc | hc
    · exact .inl hc
    · exact .inr (List.mem_filter.mp hc).1

end

/-- A key put once, so that a compaction leaves the file as it was: it overtakes the flush, and the
put after it is found. -/
theorem handoff_survives_swap_unchanged_file :
    ∃ sys₀ h p,
      System.boot 0 [] = some sys₀ ∧
      (Handoff.start sys₀).run
        [.server (.request (.put { key := [1], value := [1] })),
          .create { key := [1], startRevision := 1 }, .checkpoint 1, .compactRev, .admission,
          .screen, .openWal, .server .compactA, .phase1 44, .server .compactB, .server .compactC,
          .server (.request (.put { key := [1], value := [2] })), .phase2, .reply,
          .server (.request (.put { key := [1], value := [3] }))] = some h ∧
      p ∈ h.watched ∧
      p.1.changes.filter (fun c => p.2.checkpointRev < c.revision ∧ p.1.startRevision ≤ c.revision)
        = (changesFor (resolveRange p.1.key p.1.rangeEnd) p.1.filters
            (h.sys.store.wal.log.drop p.2.position)).filter (p.1.startRevision ≤ ·.revision) ∧
      p.1.changes.map Change.revision = [1, 2, 3] := by
  have hrun : ((System.boot 0 []).any fun sys₀ =>
      decide (Trace.Along Handoff.step (fun h ev => h.StepOk ev ∧ h.StepInPlace ev) (.start sys₀)
        [.server (.request (.put { key := [1], value := [1] })),
          .create { key := [1], startRevision := 1 }, .checkpoint 1, .compactRev, .admission,
          .screen, .openWal, .server .compactA, .phase1 44, .server .compactB, .server .compactC,
          .server (.request (.put { key := [1], value := [2] })), .phase2, .reply,
          .server (.request (.put { key := [1], value := [3] }))]) &&
      ((Handoff.start sys₀).run
        [.server (.request (.put { key := [1], value := [1] })),
          .create { key := [1], startRevision := 1 }, .checkpoint 1, .compactRev, .admission,
          .screen, .openWal, .server .compactA, .phase1 44, .server .compactB, .server .compactC,
          .server (.request (.put { key := [1], value := [2] })), .phase2, .reply,
          .server (.request (.put { key := [1], value := [3] }))]).any fun h =>
        h.watched.any fun p => p.1.changes.map Change.revision = [1, 2, 3]) = true := by
    decide +kernel
  obtain ⟨sys₀, hboot, hrun⟩ := (Option.any_eq_true _ _).mp hrun
  obtain ⟨hok, hrun⟩ := (Bool.and_eq_true _ _).mp hrun
  obtain ⟨h, hh, hp⟩ := (Option.any_eq_true _ _).mp hrun
  obtain ⟨p, hmem, hrevs⟩ := List.any_eq_true.mp hp
  exact ⟨sys₀, h, p, hboot, hh, hmem, handoff_survives_swap hboot hh (of_decide_eq_true hok) p hmem,
    of_decide_eq_true hrevs⟩

/-- A compaction shortens the file between the two phases: the put after it lies before the
checkpoint's offset, and phase 2 does not find it. -/
theorem swap_loses_event :
    ∃ sys₀ h p c,
      System.boot 0 [] = some sys₀ ∧
      (Handoff.start sys₀).run
        [.server (.request (.put { key := [1], value := [1] })),
          .server (.request (.put { key := [1], value := [2] })),
          .create { key := [1], startRevision := 1 }, .checkpoint 1, .compactRev, .admission,
          .screen, .openWal, .phase1 88, .server .compactA, .server .compactB, .server .compactC,
          .server (.request (.put { key := [1], value := [3] })), .phase2, .reply] = some h ∧
      p ∈ h.watched ∧
      c ∈ changesFor (resolveRange p.1.key p.1.rangeEnd) p.1.filters
        (h.sys.store.wal.log.drop p.2.position) ∧
      p.1.startRevision ≤ c.revision ∧ c ∉ p.1.changes := by
  have hrun : ((System.boot 0 []).any fun sys₀ =>
      ((Handoff.start sys₀).run
        [.server (.request (.put { key := [1], value := [1] })),
          .server (.request (.put { key := [1], value := [2] })),
          .create { key := [1], startRevision := 1 }, .checkpoint 1, .compactRev, .admission,
          .screen, .openWal, .phase1 88, .server .compactA, .server .compactB, .server .compactC,
          .server (.request (.put { key := [1], value := [3] })), .phase2, .reply]).any fun h =>
        h.watched.any fun p =>
          (changesFor (resolveRange p.1.key p.1.rangeEnd) p.1.filters
            (h.sys.store.wal.log.drop p.2.position)).any fun c =>
              p.1.startRevision ≤ c.revision ∧ c ∉ p.1.changes) = true := by
    decide +kernel
  obtain ⟨sys₀, hboot, hrun⟩ := (Option.any_eq_true _ _).mp hrun
  obtain ⟨h, hh, hp⟩ := (Option.any_eq_true _ _).mp hrun
  obtain ⟨p, hmem, hp⟩ := List.any_eq_true.mp hp
  obtain ⟨c, hc, hlost⟩ := List.any_eq_true.mp hp
  obtain ⟨hstart, hmissing⟩ := of_decide_eq_true hlost
  exact ⟨sys₀, h, p, c, hboot, hh, hmem, hc, hstart, hmissing⟩

end Rudurru
