import Rudurru.Compaction

/-!
# Rudurru.Restart

Restarts along with everything else: what a sequence of requests, compactions and restarts
keeps, and what it loses.

Two things live in memory and come back, or not, through the WAL: the metadata of a key
(`compaction_keeps_metadata`) and the revision counter (`revisions_survive_restarts`). Each
statement has its condition, and a run that shows it is needed.

The metadata first. A snapshot writes one put per key, so the replayed entry starts a lifetime at
its `mod_revision`, with version 1: nothing is lost of a key that was created at that revision and
left alone since. Later records then do to the replayed entry what they did to the live one, so it
is enough to compare the two at the snapshot.

The counter comes from the highest revision in the file (`Heads`). It comes back as it was if the
file has a record of the last revision that was given out: a request that takes a revision and
writes nothing spoils this, and so does a compaction that drops the last record, which was a
tombstone.
-/

namespace Rudurru

open Std (ExtTreeMap)
open Prog (exec)

/-! ### The revisions of alive keys -/

/-- Every alive key was last modified at a revision with the given property. -/
def AliveRevisions (P : UInt64 → Prop) (K : Keyspace) : Prop :=
  ∀ key ks, aliveIn K.keys key = some ks → P ks.modRevision

theorem AliveRevisions.empty (P : UInt64 → Prop) : AliveRevisions P .empty := by
  intro key ks hks
  simp [aliveIn, Keyspace.empty] at hks

theorem AliveRevisions.insert {P : UInt64 → Prop} {K : Keyspace} (h : AliveRevisions P K)
    {key : Bytes} {ks : KeyState} (hks : ks.isAlive = true → P ks.modRevision) (n : Nat) :
    AliveRevisions P ⟨K.keys.insert key ks, n⟩ := by
  intro key' ks' hks'
  by_cases heq : key = key'
  · subst heq
    rw [aliveIn_insert_self] at hks'
    split at hks'
    · next halive =>
        cases hks'
        exact hks halive
    · cases hks'
  · rw [aliveIn_insert_of_ne heq] at hks'
    exact h key' ks' hks'

theorem AliveRevisions.delete {P : UInt64 → Prop} {K : Keyspace} (h : AliveRevisions P K)
    {key : Bytes} {prev : KeyState} (hprev : aliveIn K.keys key = some prev) (rev : UInt64) :
    AliveRevisions P (K.apply (.delete key rev prev)) := by
  show AliveRevisions P ⟨K.keys.insert key { prev with deleteRevision := rev }, _⟩
  refine h.insert ?_ _
  exact fun _ => h key prev hprev

theorem AliveRevisions.apply {P : UInt64 → Prop} {K : Keyspace} {w : Write}
    (h : AliveRevisions P K) (hw : K.Accepts w) (hrev : P w.rev) :
    AliveRevisions P (K.apply w) := by
  cases w with
  | put key value lease rev prev => exact h.insert (fun _ => hrev) _
  | delete key rev prev => exact h.delete hw.1 rev

theorem AliveRevisions.run {P : UInt64 → Prop} {K K' : Keyspace} {ws : List Write}
    (h : AliveRevisions P K) (hrun : Keyspace.Run K ws K') (hrev : ∀ w ∈ ws, P w.rev) :
    AliveRevisions P K' :=
  hrun.invariant h fun _ w hw hK haccepts => hK.apply haccepts (hrev w hw)

/-! ### The metadata of alive keys -/

/-- `create_revision` and `version`, which compares and later puts read. -/
def KeyState.metadata (ks : KeyState) : UInt64 × Int64 := (ks.createRevision, ks.version)

/-- Where the mirrored keys were fresh at the snapshot, their metadata is the live one. -/
theorem Mirrors.metadata {base : ExtTreeMap Bytes KeyState} {K L : Keyspace}
    (h : Mirrors base K L)
    (hfresh : ∀ key a l, aliveIn base key = some a → aliveIn L.keys key = some l →
      l.createRevision = a.createRevision → a.version = 1 ∧ a.createRevision = a.modRevision)
    (key : Bytes) :
    (aliveIn K.keys key).map KeyState.metadata = (aliveIn L.keys key).map KeyState.metadata := by
  have hkey := h key
  generalize hm : aliveIn K.keys key = m at hkey
  generalize hl : aliveIn L.keys key = l at hkey
  cases hkey with
  | absent => rfl
  | @kept a hbase =>
      obtain ⟨hversion, hcreate⟩ := hfresh key a a hbase hl rfl
      simp only [Option.map_some, KeyState.metadata, snapshotEntry, hversion, hcreate]
  | @updated a m l hbase _ _ _ _ hcreate hmcreate hmversion =>
      obtain ⟨hversion, hfirst⟩ := hfresh key a l hbase hl hcreate
      simp only [Option.map_some, KeyState.metadata, hmcreate, hcreate, hfirst, hmversion, hversion]
      simp
  | created _ _ _ _ hcreate hversion =>
      simp only [Option.map_some, KeyState.metadata, hcreate, hversion]

section

variable [Crates]

/-! ### Replayed revisions -/

theorem AliveRevisions.replay? {P : UInt64 → Prop} {K K' : Keyspace} {rec : KvWalRecord}
    (h : AliveRevisions P K) (hrec : P rec.revision) (hK' : K.replay? rec = some K') :
    AliveRevisions P K' := by
  obtain rfl | ⟨prev, hprev, rfl⟩ | ⟨kv, n, -, -, rfl⟩ := Keyspace.replay?_cases hK'
  · exact h
  · exact h.delete hprev _
  · exact h.insert (fun _ => hrec) n

theorem AliveRevisions.replayAll? {P : UInt64 → Prop} {K K' : Keyspace} {recs : List KvWalRecord}
    (h : AliveRevisions P K) (hrecs : ∀ rec ∈ recs, P rec.revision)
    (hK' : K.replayAll? recs = some K') : AliveRevisions P K' :=
  Keyspace.replayAll?_invariant hK' h fun _ _ rec hrec h => h.replay? (hrecs rec hrec)

/-! ### Admissible runs -/

/-- Records fit their format and revisions their counter. -/
def System.StepOk (sys : System) (ev : Event) : Prop := sys.StepFits ev ∧ sys.StepCounts ev

instance (sys : System) (ev : Event) : Decidable (sys.StepOk ev) :=
  inferInstanceAs (Decidable (_ ∧ _))

/-- Appends succeed, and every alive key has a revision that a replay does not skip. -/
structure Positive (sys : System) : Prop where
  faults : sys.store.wal.faults = []
  revisions : AliveRevisions (· ≠ 0) sys.store.keyspace

theorem Positive.step {sys sys' : System} {ev : Event} (h : Positive sys)
    (hcounts : sys.StepCounts ev) (hstep : sys.step ev = some sys') : Positive sys' := by
  cases System.moves_of_step h.faults hstep with
  | request hq hserved =>
      refine ⟨hserved.faults, h.revisions.run hserved.run ?_⟩
      intro w hw
      rw [hserved.rev_eq w hw]
      exact hcounts.1
  | watch hquiet => exact ⟨by rw [hquiet.wal, h.faults], by rw [hquiet.keyspace]; exact h.revisions⟩
  | cancelWatch hquiet =>
      exact ⟨by rw [hquiet.wal, h.faults], by rw [hquiet.keyspace]; exact h.revisions⟩
  | compactA | compactB | compactC | compactFails => exact ⟨h.faults, h.revisions⟩
  | restart hopen =>
      obtain ⟨recs, n, K, -, hK, rfl⟩ := openStore_eq_ok hopen
      refine ⟨rfl, (AliveRevisions.empty _).replayAll? ?_ hK⟩
      intro rec hrec
      simpa using (List.mem_filter.mp hrec).2

omit [Crates] in
theorem positive_fresh : Positive ⟨fresh, none⟩ := ⟨rfl, .empty _⟩

/-! ### Metadata

Two stores are compared on keys alone: the live one and the one that a restart would make of the
file.
-/

/-- Two stores agree on the metadata of every key, and on what depends on it. -/
structure SameMetadata (s s' : StoreState) : Prop where
  metadata : ∀ key, (s'.alive? key).map KeyState.metadata = (s.alive? key).map KeyState.metadata
  compares : ∀ cmp : Compare,
    targetFromI32 cmp.target = .version ∨ targetFromI32 cmp.target = .create →
      evalCompare s' cmp = evalCompare s cmp
  next_put : ∀ key value lease rev,
    putRecord key value lease rev (s'.alive? key) = putRecord key value lease rev (s.alive? key)

theorem SameMetadata.of_metadata {s s' : StoreState}
    (h : ∀ key, (s'.alive? key).map KeyState.metadata = (s.alive? key).map KeyState.metadata) :
    SameMetadata s s' := by
  have hcreate : ∀ key, (s'.alive? key).map (·.createRevision)
      = (s.alive? key).map (·.createRevision) := by
    intro key
    have := congrArg (Option.map Prod.fst) (h key)
    simpa [Option.map_map, Function.comp_def, KeyState.metadata] using this
  have hversion : ∀ key, (s'.alive? key).map (·.version) = (s.alive? key).map (·.version) := by
    intro key
    have := congrArg (Option.map Prod.snd) (h key)
    simpa [Option.map_map, Function.comp_def, KeyState.metadata] using this
  have hnone : ∀ key, (s'.alive? key).isNone = (s.alive? key).isNone := by
    intro key
    have := congrArg Option.isNone (h key)
    simpa using this
  refine ⟨h, ?_, ?_⟩
  · intro cmp htarget
    unfold evalCompare
    rcases htarget with htarget | htarget
    · simp only [htarget, hversion]
    · have hcreate' := congrArg (Option.map UInt64.toInt64) (hcreate cmp.key)
      simp only [Option.map_map, Function.comp_def] at hcreate'
      simp only [htarget, hcreate']
  · intro key value lease rev
    have hversion' := congrArg (Option.map (· + 1)) (hversion key)
    simp only [Option.map_map, Function.comp_def] at hversion'
    simp only [putRecord, hnone, hcreate, hversion']

/-- The events of a `compact_wal` with requests before and after its unlocked phase B. -/
def compacting (qs₁ qs₂ : List Request) : List Event :=
  [.compactA] ++ qs₁.map .request ++ [.compactB] ++ qs₂.map .request ++ [.compactC]

/-- Requests during a compaction: the writes since its snapshot grow, at non-zero revisions. -/
theorem pending_requests {sys sys' : System} {qs : List Request} {c : Compaction}
    {base : Keyspace} {ws : List Write} (hrun : System.run sys (qs.map .request) = some sys')
    (hok : Trace.Along System.step System.StepOk sys (qs.map .request))
    (hs : sys.store.wal.faults = []) (hcomp : sys.compaction = some c)
    (hp : Pending sys.store c base ws) (hrev : ∀ w ∈ ws, w.rev ≠ 0) :
    sys'.store.wal.faults = [] ∧ sys'.compaction = some c ∧
      ∃ ws', Pending sys'.store c base ws' ∧ ∀ w ∈ ws', w.rev ≠ 0 := by
  induction qs generalizing sys ws with
  | nil =>
      cases hrun
      exact ⟨hs, hcomp, ws, hp, hrev⟩
  | cons q qs ih =>
      rw [List.map_cons, System.run, Trace.run_cons, Option.bind_eq_some_iff] at hrun
      obtain ⟨sys₁, hstep, hrest⟩ := hrun
      obtain ⟨⟨hfit, hcounts⟩, hok⟩ := hok
      cases System.moves_of_step hs hstep with
      | @request _ vs s' hq hserved =>
          have hfits : ∀ w ∈ vs, w.record.Fits := by
            intro w hw
            refine hfit s' hq _ ?_
            rw [hserved.log]
            exact List.mem_append_right _ (List.mem_map_of_mem hw)
          refine ih hrest (hok _ hstep) hserved.faults hcomp
            (hp.commits hserved.toCommits hfits) ?_
          intro w hw
          rcases List.mem_append.mp hw with hw | hw
          · exact hrev w hw
          · rw [hserved.rev_eq w hw]
            exact hcounts.1

variable [LawfulCrates]

/-- The revisions in a compacted file are those of the snapshot and of the writes behind it. -/
theorem revision_compacted {P : UInt64 → Prop} {s : StoreState} {c : Compaction} {base : Keyspace}
    {ws : List Write} (hp : Pending s c base ws) (hbase : AliveRevisions P base)
    (hws : ∀ w ∈ ws, P w.rev) :
    ∀ r ∈ (aliveEntries base.keys).map (fun e => snapshotRecord e.1 e.2) ++ ws.map Write.record,
      P r.revision := by
  intro r hr
  rcases List.mem_append.mp hr with hr | hr
  · obtain ⟨e, he, rfl⟩ := List.mem_map.mp hr
    rw [revision_snapshotRecord (hp.snapshot_fits e he)]
    exact hbase e.1 e.2 (mem_aliveEntries.mp he)
  · obtain ⟨w, hw, rfl⟩ := List.mem_map.mp hr
    rw [(Write.record_spec (hp.fits w hw)).2.2]
    exact hws w hw

/-- Opening the file that phase C leaves. -/
theorem openStore_compacted {s : StoreState} {c : Compaction} {base : Keyspace} {ws : List Write}
    (hp : Pending s c base ws) (hbase : AliveRevisions (· ≠ 0) base) (hrev : ∀ w ∈ ws, w.rev ≠ 0)
    (hfresh : ∀ key a l, aliveIn base.keys key = some a → s.alive? key = some l →
      l.createRevision = a.createRevision → a.version = 1 ∧ a.createRevision = a.modRevision)
    (now : Nat) :
    ∃ s', openStore now (s.compactPhaseC c.target c.walSize).wal.contents = .ok s' ∧
      SameMetadata (s.compactPhaseC c.target c.walSize) s' := by
  obtain ⟨K, hK, hmirrors⟩ := replay_compacted hp.snapshot_fits hp.run hp.fits
  have hscan := scanKvFile_serializeAll (wellFormed_compacted hp.snapshot_fits hp.fits)
  have hreplayed := replayed_of_nonzero (revision_compacted hp hbase hrev)
  rw [hp.contents_swap]
  refine ⟨_, openStore_of_scan hscan (by rw [hreplayed]; exact hK), .of_metadata ?_⟩
  exact hmirrors.metadata hfresh

/-- **Metadata survives a compaction and a restart** for keys that the snapshot caught as first
created: after `compact_wal`, with any requests between its phases, the store that opens the
new file agrees with the live one on `create_revision` and `version`, provided every key still
in the lifetime it was in at phase A had version 1 there and was last modified by its
creation. -/
theorem compaction_keeps_metadata {evs : List Event} {qs₁ qs₂ : List Request}
    {sys₀ sys : System} (hreach : System.run ⟨fresh, none⟩ evs = some sys₀)
    (hcompact : System.run sys₀ (compacting qs₁ qs₂) = some sys)
    (hok : Trace.Along System.step System.StepOk ⟨fresh, none⟩ (evs ++ compacting qs₁ qs₂))
    (hfresh : ∀ key a l, sys₀.store.alive? key = some a → sys.store.alive? key = some l →
      l.createRevision = a.createRevision → a.version = 1 ∧ a.createRevision = a.modRevision)
    (now : Nat) :
    ∃ s', openStore now sys.store.wal.contents = .ok s' ∧ SameMetadata sys.store s' := by
  rw [Trace.along_append] at hok
  obtain ⟨hok₀, hok⟩ := hok
  have hpos : Positive sys₀ :=
    Trace.invariant (fun _ _ _ h hP hstep => h.step hP.2 hstep) positive_fresh hok₀ hreach
  -- the five stretches of the compaction
  have hok := hok sys₀ hreach
  simp only [compacting, Trace.along_append] at hok
  simp only [compacting, System.run, Trace.run_append_eq_some, Trace.run_singleton] at hcompact
  obtain ⟨sys₄, ⟨sys₃, ⟨sys₂, ⟨sys₁, hA, hqs₁⟩, hB⟩, hqs₂⟩, hC⟩ := hcompact
  obtain ⟨⟨⟨⟨hokA, hok₁⟩, -⟩, hok₂⟩, -⟩ := hok
  simp only [Trace.run_append_eq_some, Trace.run_singleton] at hok₁ hok₂
  have hok₁ := hok₁ sys₁ hA
  have hok₂ := hok₂ sys₃ ⟨sys₂, ⟨sys₁, hA, hqs₁⟩, hB⟩
  have hmoveA := System.moves_of_step hpos.faults hA
  cases hmoveA
  have hstart : Pending sys₀.store sys₀.store.compactPhaseA sys₀.store.keyspace [] :=
    .start hokA.1.1
  obtain ⟨hfaults₂, hcomp₂, ws₁, hp₁, hrev₁⟩ :=
    pending_requests hqs₁ hok₁ hpos.faults rfl hstart (by simp)
  have hmoveB := System.moves_of_step hfaults₂ hB
  cases hmoveB with
  | @compactB c c' hc htarget hsize =>
      rw [hcomp₂] at hc
      cases hc
      obtain ⟨hfaults₄, hcomp₄, ws, hp, hrev⟩ :=
        pending_requests hqs₂ hok₂ hfaults₂ rfl (hp₁.phaseB htarget hsize) hrev₁
      have hmoveC := System.moves_of_step hfaults₄ hC
      cases hmoveC with
      | @compactC c hc =>
          rw [hcomp₄] at hc
          cases hc
          exact openStore_compacted hp hpos.revisions hrev hfresh now

end

theorem compaction_keeps_metadata_fresh_key :
    ∃ sys₀ sys s', System.run ⟨fresh, none⟩ [.request (.put { key := [1], value := [2] })]
        = some sys₀ ∧
      System.run sys₀ (compacting [.put { key := [1], value := [3] }] []) = some sys ∧
      openStore 0 sys.store.wal.contents = .ok s' ∧ SameMetadata sys.store s' := by
  have hrun : ((System.run ⟨fresh, none⟩ [.request (.put { key := [1], value := [2] })]).any
      fun sys₀ => (System.run sys₀ (compacting [.put { key := [1], value := [3] }] [])).any
        fun sys => (aliveEntries sys₀.store.keys).all fun e => (sys.store.alive? e.1).all
          fun l => decide (l.createRevision = e.2.createRevision →
            e.2.version = 1 ∧ e.2.createRevision = e.2.modRevision)) = true := by
    decide +kernel
  obtain ⟨sys₀, hsys₀, hrun⟩ := (Option.any_eq_true _ _).mp hrun
  obtain ⟨sys, hsys, hall⟩ := (Option.any_eq_true _ _).mp hrun
  have hfresh : ∀ key a l, sys₀.store.alive? key = some a → sys.store.alive? key = some l →
      l.createRevision = a.createRevision → a.version = 1 ∧ a.createRevision = a.modRevision := by
    intro key a l ha hl
    have hentry := List.all_eq_true.mp hall (key, a) (mem_aliveEntries.mpr ha)
    rw [hl, Option.all_some] at hentry
    exact of_decide_eq_true hentry
  obtain ⟨s', hs', hsame⟩ := compaction_keeps_metadata hsys₀ hsys (by decide +kernel) hfresh 0
  exact ⟨sys₀, sys, s', hsys₀, hsys, hs', hsame⟩

/-- The condition is needed: a key updated once before a compaction comes back as version 1,
created by its update. -/
theorem compaction_resets_version :
    ∃ sys s', System.run ⟨fresh, none⟩ ([.request (.put { key := [1], value := [2] }),
        .request (.put { key := [1], value := [3] })] ++ compacting [] []) = some sys ∧
      openStore 0 sys.store.wal.contents = .ok s' ∧ ¬ SameMetadata sys.store s' := by
  have hrun : ((System.run ⟨fresh, none⟩ ([.request (.put { key := [1], value := [2] }),
      .request (.put { key := [1], value := [3] })] ++ compacting [] [])).any fun sys =>
        (openStore 0 sys.store.wal.contents).toOption.any fun s' =>
          decide ((s'.alive? [1]).map KeyState.metadata
            ≠ (sys.store.alive? [1]).map KeyState.metadata)) = true := by
    decide +kernel
  obtain ⟨sys, hsys, hrun⟩ := (Option.any_eq_true _ _).mp hrun
  obtain ⟨s', hs', hne⟩ := (Option.any_eq_true _ _).mp hrun
  refine ⟨sys, s', hsys, Prog.ok_of_toOption hs', ?_⟩
  intro hsame
  exact of_decide_eq_true hne (hsame.metadata [1])

/-! ### Revisions

`Heads` says that the highest revision in the file is the last one that was given out, so that
counting on from it is neither a step back nor a gap.
-/

theorem maxRevision_cons (r : KvWalRecord) (recs : List KvWalRecord) (m : UInt64) :
    maxRevision (r :: recs) m = maxRevision recs (if r.revision > m then r.revision else m) := rfl

/-- No record has a higher revision. -/
theorem le_maxRevision {recs : List KvWalRecord} {m : UInt64} :
    m ≤ maxRevision recs m ∧ ∀ r ∈ recs, r.revision ≤ maxRevision recs m := by
  induction recs generalizing m with
  | nil => exact ⟨UInt64.le_refl _, by simp⟩
  | cons r recs ih =>
      rw [maxRevision_cons]
      by_cases hgt : r.revision > m
      · rw [if_pos hgt]
        obtain ⟨hm, hrecs⟩ := ih (m := r.revision)
        exact ⟨UInt64.le_trans (UInt64.le_of_lt hgt) hm, by simpa using ⟨hm, hrecs⟩⟩
      · rw [if_neg hgt]
        obtain ⟨hm, hrecs⟩ := ih (m := m)
        refine ⟨hm, ?_⟩
        intro r' hr'
        rcases List.mem_cons.mp hr' with rfl | hr'
        · exact UInt64.le_trans (UInt64.not_lt.mp hgt) hm
        · exact hrecs r' hr'

/-- The highest revision is that of some record, if there is any above `m`. -/
theorem maxRevision_mem {recs : List KvWalRecord} {m : UInt64} :
    maxRevision recs m = m ∨ ∃ r ∈ recs, maxRevision recs m = r.revision := by
  induction recs generalizing m with
  | nil => exact .inl rfl
  | cons r recs ih =>
      rw [maxRevision_cons]
      by_cases hgt : r.revision > m
      · rw [if_pos hgt]
        rcases ih (m := r.revision) with heq | ⟨r', hr', heq⟩
        · exact .inr ⟨r, by simp, heq⟩
        · exact .inr ⟨r', by simp [hr'], heq⟩
      · rw [if_neg hgt]
        rcases ih (m := m) with heq | ⟨r', hr', heq⟩
        · exact .inl heq
        · exact .inr ⟨r', by simp [hr'], heq⟩

/-- A store opened on well-formed records counts on from the highest revision. -/
theorem opened_lt {recs : List KvWalRecord} (hrev : ∀ rec ∈ recs, rec.revision.toNat + 1 < 2 ^ 64)
    (now : Nat) (contents : Bytes) (K : Keyspace) :
    0 < (opened now contents recs K).nextRev.toNat ∧
      ∀ rec ∈ recs, rec.revision.toNat < (opened now contents recs K).nextRev.toNat := by
  have hmax : (maxRevision recs 0).toNat + 1 < 2 ^ 64 := by
    rcases @maxRevision_mem recs 0 with hzero | ⟨rec, hrec, heq⟩
    · rw [hzero]
      decide
    · rw [heq]
      exact hrev rec hrec
  have hnext : (opened now contents recs K).nextRev.toNat = (maxRevision recs 0).toNat + 1 := by
    rw [opened_nextRev, UInt64.toNat_add, UInt64.toNat_one]
    omega
  refine ⟨by omega, ?_⟩
  intro rec hrec
  have hle := UInt64.le_iff_toNat_le.mp ((@le_maxRevision recs 0).2 rec hrec)
  omega

/-- The records reach up to the revision counter and not beyond. -/
structure Heads (recs : List KvWalRecord) (nextRev : UInt64) : Prop where
  lt : ∀ r ∈ recs, r.revision.toNat < nextRev.toNat
  head : nextRev.toNat = 1 ∨ ∃ r ∈ recs, r.revision.toNat + 1 = nextRev.toNat

/-- The counter that `Store::open` rebuilds from such records is the one they reach up to. -/
theorem Heads.maxRevision {recs : List KvWalRecord} {nextRev : UInt64} (h : Heads recs nextRev) :
    maxRevision recs 0 + 1 = nextRev := by
  have hlt := nextRev.toNat_lt
  obtain ⟨-, hle⟩ := @le_maxRevision recs 0
  have hmax : (Rudurru.maxRevision recs 0).toNat + 1 = nextRev.toNat := by
    rcases h.head with hone | ⟨r, hr, hhead⟩
    · rcases @maxRevision_mem recs 0 with heq | ⟨r, hr, heq⟩
      · rw [heq, hone]
        rfl
      · have := h.lt r hr
        rw [heq]
        omega
    · have hge := UInt64.le_iff_toNat_le.mp (hle r hr)
      rcases @maxRevision_mem recs 0 with heq | ⟨r', hr', heq⟩
      · rw [heq] at hge ⊢
        simp at hge
        simp
        omega
      · have := h.lt r' hr'
        rw [heq] at hge ⊢
        omega
  apply UInt64.toNat_inj.mp
  rw [UInt64.toNat_add, UInt64.toNat_one]
  omega

section

variable [Crates]

/-- The event leaves a record at the current revision: a request that takes a revision writes
a record, and a compaction does not drop the last one. -/
def System.StepKeepsHead (sys : System) : Event → Prop
  | .request q => ∀ s' ∈ answer sys.store q,
      s'.nextRev = sys.store.nextRev ∨ sys.store.wal.log.length < s'.wal.log.length
  | .compactC => ∀ c ∈ sys.compaction,
      c.walSize < sys.store.wal.contents.length ∨ sys.store.currentRevision = 0 ∨
        ∃ e ∈ aliveEntries sys.store.keys, e.2.modRevision = sys.store.currentRevision
  | _ => True

instance (sys : System) (ev : Event) : Decidable (sys.StepKeepsHead ev) :=
  match ev with
  | .request q => inferInstanceAs (Decidable (∀ s' ∈ answer sys.store q, _))
  | .compactC => inferInstanceAs (Decidable (∀ c ∈ sys.compaction, _))
  | .watch _ | .cancelWatch _ | .compactA | .compactB | .compactFails | .restart _ =>
      .isTrue trivial

/-- The WAL holds whole records that reach up to the revision counter, and so will the file a
running compaction is preparing. -/
structure Counted (sys : System) : Prop where
  faults : sys.store.wal.faults = []
  file : ∃ recs, sys.store.wal.contents = serializeAll recs ∧ (∀ r ∈ recs, r.WellFormed) ∧
    Heads recs sys.store.nextRev
  alive : AliveRevisions (fun rev => rev.toNat < sys.store.nextRev.toNat) sys.store.keyspace
  pending : ∀ c, sys.compaction = some c → ∃ base ws, Pending sys.store c base ws ∧
    AliveRevisions (fun rev => rev.toNat < sys.store.nextRev.toNat) base ∧
    (∀ w ∈ ws, w.rev.toNat < sys.store.nextRev.toNat) ∧
    (ws = [] ∨ ∃ w ∈ ws, w.rev.toNat + 1 = sys.store.nextRev.toNat)

omit [Crates] in
theorem AliveRevisions.mono {P Q : UInt64 → Prop} {K : Keyspace} (h : AliveRevisions P K)
    (hPQ : ∀ rev, P rev → Q rev) : AliveRevisions Q K :=
  fun key ks hks => hPQ _ (h key ks hks)

theorem counted_fresh : Counted ⟨fresh, none⟩ where
  faults := rfl
  file := ⟨[], rfl, by simp, by simp, .inl rfl⟩
  alive := .empty _
  pending := by simp

theorem Counted.quiet {sys : System} (h : Counted sys) {s' : StoreState}
    (hq : Quiet sys.store s') : Counted { sys with store := s' } where
  faults := by rw [hq.wal, h.faults]
  file := by
    rw [hq.wal, hq.nextRev]
    exact h.file
  alive := by
    rw [hq.nextRev, hq.keyspace]
    exact h.alive
  pending := by
    intro c hc
    obtain ⟨base, ws, hp, hbase, hws, hhead⟩ := h.pending c hc
    rw [hq.nextRev]
    exact ⟨base, ws, hp.quiet hq, hbase, hws, hhead⟩

variable [LawfulCrates]

/-- A request that takes a revision and writes at it. -/
theorem Counted.served {sys : System} (h : Counted sys) {s' : StoreState} {ws : List Write}
    (hserved : Served sys.store ws s') (hfit : ∀ w ∈ ws, w.record.Fits)
    (hcount : sys.store.nextRev.toNat + 1 < 2 ^ 64)
    (hhead : s'.nextRev = sys.store.nextRev ∨ ws ≠ []) : Counted { sys with store := s' } := by
  obtain ⟨hle, -, hrev⟩ := hserved.toNat_nextRev hcount
  -- either nothing happened, or the writes are at the new head
  have hnew : (ws = [] ∧ s'.nextRev = sys.store.nextRev) ∨
      ∃ w ∈ ws, w.rev.toNat + 1 = s'.nextRev.toNat := by
    by_cases hws : ws = []
    · rcases hhead with hsame | hne
      · exact .inl ⟨hws, hsame⟩
      · exact absurd hws hne
    · obtain ⟨w, hw⟩ := List.exists_mem_of_ne_nil ws hws
      obtain ⟨hwr, hnext⟩ := hrev w hw
      exact .inr ⟨w, hw, by rw [hwr, hnext]⟩
  have hlt : ∀ w ∈ ws, w.rev.toNat < s'.nextRev.toNat := by
    intro w hw
    obtain ⟨hwr, hnext⟩ := hrev w hw
    rw [hwr, hnext]
    omega
  refine ⟨hserved.faults, ?_, ?_, ?_⟩
  · obtain ⟨recs, hcontents, hwf, hheads⟩ := h.file
    refine ⟨recs ++ ws.map Write.record, ?_, ?_, ?_, ?_⟩
    · rw [hserved.contents, hcontents, serializeAll_append]
    · intro r hr
      rcases List.mem_append.mp hr with hr | hr
      · exact hwf r hr
      · exact wellFormed_of_fits hfit r hr
    · intro r hr
      rcases List.mem_append.mp hr with hr | hr
      · have := hheads.lt r hr
        show r.revision.toNat < s'.nextRev.toNat
        omega
      · obtain ⟨w, hw, rfl⟩ := List.mem_map.mp hr
        rw [(Write.record_spec (hfit w hw)).2.2]
        exact hlt w hw
    · rcases hnew with ⟨rfl, hsame⟩ | ⟨w, hw, hhead⟩
      · simpa [hsame] using hheads.head
      · refine .inr ⟨w.record, List.mem_append_right _ (List.mem_map_of_mem hw), ?_⟩
        rw [(Write.record_spec (hfit w hw)).2.2]
        exact hhead
  · exact (h.alive.mono fun rev hrev => Nat.lt_of_lt_of_le hrev hle).run hserved.run hlt
  · intro c hc
    obtain ⟨base, vs, hp, hbase, hvs, hhead'⟩ := h.pending c hc
    refine ⟨base, vs ++ ws, hp.commits hserved.toCommits hfit,
      hbase.mono fun rev hrev => Nat.lt_of_lt_of_le hrev hle, ?_, ?_⟩
    · intro w hw
      rcases List.mem_append.mp hw with hw | hw
      · exact Nat.lt_of_lt_of_le (hvs w hw) hle
      · exact hlt w hw
    · rcases hnew with ⟨rfl, hsame⟩ | ⟨w, hw, hhead⟩
      · simpa [hsame] using hhead'
      · exact .inr ⟨w, List.mem_append_right _ hw, hhead⟩

omit [LawfulCrates] in
theorem Counted.toNat_currentRevision {sys : System} (h : Counted sys) :
    sys.store.currentRevision.toNat + 1 = sys.store.nextRev.toNat := by
  refine Rudurru.toNat_currentRevision ?_
  obtain ⟨recs, -, -, hheads⟩ := h.file
  rcases hheads.head with hone | ⟨r, -, hr⟩ <;> omega

/-- Phase C, when the head of history stays. -/
theorem Counted.swap {sys : System} (h : Counted sys) {c : Compaction}
    (hcomp : sys.compaction = some c)
    (hkeep : c.walSize < sys.store.wal.contents.length ∨ sys.store.currentRevision = 0 ∨
      ∃ e ∈ aliveEntries sys.store.keys, e.2.modRevision = sys.store.currentRevision) :
    Counted { store := sys.store.compactPhaseC c.target c.walSize, compaction := none } := by
  have hcur := h.toNat_currentRevision
  obtain ⟨base, ws, hp, hbase, hws, hhead⟩ := h.pending c hcomp
  refine ⟨h.faults, ⟨_, hp.contents_swap, wellFormed_compacted hp.snapshot_fits hp.fits, ?_, ?_⟩,
    h.alive, by simp⟩
  · exact revision_compacted hp hbase hws
  · rcases hhead with rfl | ⟨w, hw, hhead⟩
    · -- nothing was written since the snapshot, so it caught the present state
      have hsame : base = sys.store.keyspace := by
        cases hp.run
        rfl
      subst hsame
      rcases hkeep with hgrown | hzero | ⟨e, he, hmod⟩
      · obtain ⟨before, hlen, hcontents⟩ := hp.contents
        rw [hcontents] at hgrown
        simp [serializeAll, FramedLog.encodeAll] at hgrown
        omega
      · refine .inl ?_
        rw [hzero] at hcur
        exact hcur.symm
      · refine .inr ⟨snapshotRecord e.1 e.2,
          List.mem_append_left _ (List.mem_map.mpr ⟨e, he, rfl⟩), ?_⟩
        rw [revision_snapshotRecord (hp.snapshot_fits e he), hmod]
        exact hcur
    · refine .inr ⟨w.record, List.mem_append_right _ (List.mem_map_of_mem hw), ?_⟩
      rw [(Write.record_spec (hp.fits w hw)).2.2]
      exact hhead

omit [LawfulCrates] in
/-- A restart rebuilds the counter. -/
theorem Counted.restart {sys : System} (h : Counted sys) {now : Nat} {s' : StoreState}
    (hopen : openStore now sys.store.wal.contents = .ok s') :
    s'.nextRev = sys.store.nextRev ∧ Counted { store := s', compaction := none } := by
  obtain ⟨recs, hcontents, hwf, hheads⟩ := h.file
  obtain ⟨recs', n, K, hscan, hK, rfl⟩ := openStore_eq_ok hopen
  rw [hcontents, scanKvFile_serializeAll hwf] at hscan
  cases hscan
  have hnext := hheads.maxRevision
  refine ⟨hnext, rfl, ⟨recs, hcontents, hwf, ?_⟩, ?_, by simp⟩
  · show Heads recs (maxRevision recs 0 + 1)
    rw [hnext]
    exact hheads
  · refine (AliveRevisions.empty _).replayAll? ?_ hK
    intro rec hrec
    show rec.revision.toNat < (maxRevision recs 0 + 1).toNat
    rw [hnext]
    exact hheads.lt rec (List.mem_filter.mp hrec).1

/-- What an admissible event keeps, and that it never lowers the counter. -/
theorem Counted.step {sys sys' : System} {ev : Event} (h : Counted sys) (hok : sys.StepOk ev)
    (hkeep : sys.StepKeepsHead ev) (hstep : sys.step ev = some sys') :
    Counted sys' ∧ sys.store.nextRev.toNat ≤ sys'.store.nextRev.toNat := by
  obtain ⟨hfit, hcounts⟩ := hok
  cases System.moves_of_step h.faults hstep with
  | @request q ws s' hq hserved =>
      have hlog : s'.wal.log = sys.store.wal.log ++ ws.map Write.record := hserved.log
      refine ⟨h.served hserved ?_ hcounts.2 ?_, (hserved.toNat_nextRev hcounts.2).1⟩
      · intro w hw
        refine hfit s' hq _ ?_
        rw [hlog]
        exact List.mem_append_right _ (List.mem_map_of_mem hw)
      · -- a write that took a revision left a record of it, so the log is not empty
        rcases hkeep s' hq with hsame | hgrown
        · exact .inl hsame
        · refine .inr ?_
          intro hnil
          rw [hlog, hnil] at hgrown
          simp at hgrown
  | watch hquiet => exact ⟨h.quiet hquiet, by rw [hquiet.nextRev]⟩
  | cancelWatch hquiet => exact ⟨h.quiet hquiet, by rw [hquiet.nextRev]⟩
  | compactA hnone =>
      refine ⟨⟨h.faults, h.file, h.alive, ?_⟩, Nat.le_refl _⟩
      intro c hc
      cases hc
      exact ⟨_, [], .start hfit, h.alive, by simp, .inl rfl⟩
  | @compactB c c' hcomp htarget hsize =>
      refine ⟨⟨h.faults, h.file, h.alive, ?_⟩, Nat.le_refl _⟩
      intro c'' hc
      cases hc
      obtain ⟨base, ws, hp, hrest⟩ := h.pending c hcomp
      exact ⟨base, ws, hp.phaseB htarget hsize, hrest⟩
  | @compactC c hcomp => exact ⟨h.swap hcomp (hkeep c hcomp), Nat.le_refl _⟩
  | compactFails => exact ⟨⟨h.faults, h.file, h.alive, by simp⟩, Nat.le_refl _⟩
  | restart hopen =>
      obtain ⟨hnext, hcounted⟩ := h.restart hopen
      exact ⟨hcounted, by rw [hnext]⟩

/-- The same along a run. -/
theorem Counted.run {sys sys' : System} {evs : List Event} (h : Counted sys)
    (hok : Trace.Along System.step (fun sys ev => sys.StepOk ev ∧ sys.StepKeepsHead ev) sys evs)
    (hrun : System.run sys evs = some sys') :
    Counted sys' ∧ sys.store.nextRev.toNat ≤ sys'.store.nextRev.toNat := by
  have hstep : ∀ s ev s', Counted s ∧ sys.store.nextRev.toNat ≤ s.store.nextRev.toNat →
      s.StepOk ev ∧ s.StepKeepsHead ev → s.step ev = some s' →
        Counted s' ∧ sys.store.nextRev.toNat ≤ s'.store.nextRev.toNat := by
    intro s ev s' hs hP hstep
    obtain ⟨hcounted, hle⟩ := hs.1.step hP.1 hP.2 hstep
    exact ⟨hcounted, Nat.le_trans hs.2 hle⟩
  exact Trace.invariant hstep ⟨h, Nat.le_refl _⟩ hok hrun

/-- **Revisions are neither rolled back nor reused**, along every run whose requests write a
record whenever they take a revision and whose compactions keep a record at the current
revision: a restart does not lower the current revision, and no write is assigned the revision
that an earlier successful write returned in its header. -/
theorem revisions_survive_restarts {evs : List Event}
    (hok : Trace.Along System.step (fun sys ev => sys.StepOk ev ∧ sys.StepKeepsHead ev)
      ⟨fresh, none⟩ evs) :
    (∀ evs₁ now evs₂ sys sys', evs = evs₁ ++ [.restart now] ++ evs₂ →
      System.run ⟨fresh, none⟩ evs₁ = some sys → sys.step (.restart now) = some sys' →
        sys.store.currentRevision ≤ sys'.store.currentRevision) ∧
    (∀ evs₁ q evs₂ q' evs₃ sys₁ sys₂ reply header s s',
      evs = evs₁ ++ (.request q :: evs₂) ++ (.request q' :: evs₃) →
      System.run ⟨fresh, none⟩ evs₁ = some sys₁ →
      exec (handle q) sys₁.store = (.ok reply, s) → reply.writeHeader = some header →
      System.run sys₁ (.request q :: evs₂) = some sys₂ → answer sys₂.store q' = some s' →
        ∀ rec ∈ s'.wal.log.drop sys₂.store.wal.log.length,
          rec.revision ≠ header.revision.toUInt64) := by
  constructor
  · intro evs₁ now evs₂ sys sys' hevs hrun hstep
    rw [hevs, List.append_assoc, Trace.along_append] at hok
    obtain ⟨hcounted, -⟩ := counted_fresh.run hok.1 hrun
    cases System.moves_of_step hcounted.faults hstep with
    | restart hopen =>
        obtain ⟨hnext, -⟩ := hcounted.restart hopen
        simp only [StoreState.currentRevision, hnext, UInt64.le_refl]
  · intro evs₁ q evs₂ q' evs₃ sys₁ sys₂ reply header s s' hevs hrun hq hheader hrun' hq'
    rw [hevs, List.append_assoc, Trace.along_append] at hok
    obtain ⟨hcounted₁, -⟩ := counted_fresh.run hok.1 hrun
    have hok := hok.2 sys₁ hrun
    rw [Trace.along_append] at hok
    obtain ⟨hok₁, hok₂⟩ := hok
    obtain ⟨hP', -⟩ := hok₂ sys₂ hrun'
    -- the first write leaves its own revision as the current one
    have hstep : sys₁.step (.request q) = some { sys₁ with store := s } := by
      simp only [System.step, answer_of_ok hq, Option.map_some]
    obtain ⟨hcounted, -⟩ := hcounted₁.step hok₁.1.1 hok₁.1.2 hstep
    have hcur : s.currentRevision.toNat + 1 = s.nextRev.toNat := hcounted.toNat_currentRevision
    rw [System.run, Trace.run_cons, hstep, Option.bind_some] at hrun'
    obtain ⟨hcounted₂, hle⟩ := hcounted.run (hok₁.2 _ hstep) hrun'
    -- and the second one writes at the counter, which has not come back
    obtain ⟨ws, hserved⟩ := answer_served hcounted₂.faults hq'
    intro rec hrec
    rw [hserved.log, List.drop_left] at hrec
    obtain ⟨w, hw, rfl⟩ := List.mem_map.mp hrec
    have hfit : w.record.Fits := by
      refine hP'.1.1 s' hq' _ ?_
      rw [hserved.log]
      exact List.mem_append_right _ hrec
    rw [(Write.record_spec hfit).2.2, hserved.rev_eq w hw, handle_header hq hheader]
    intro heq
    have hnat := congrArg UInt64.toNat heq
    simp only [StoreState.header, UInt64.toUInt64_toInt64] at hnat
    simp only at hle
    omega

end

/-- A key is created, another one deleted, and the file compacted while its last record is that
of an alive key. -/
theorem revisions_survive_restarts_compacted :
    ∃ sys sys', System.run ⟨fresh, none⟩ ([.request (.put { key := [1], value := [2] }),
        .request (.deleteRange { key := [1] }), .request (.put { key := [2], value := [3] })]
          ++ compacting [] []) = some sys ∧ sys.step (.restart 0) = some sys' ∧
      sys.store.currentRevision ≤ sys'.store.currentRevision := by
  have hrun : ((System.run ⟨fresh, none⟩ ([.request (.put { key := [1], value := [2] }),
      .request (.deleteRange { key := [1] }), .request (.put { key := [2], value := [3] })]
        ++ compacting [] [])).any fun sys => (sys.step (.restart 0)).isSome) = true := by
    decide +kernel
  obtain ⟨sys, hsys, hrestart⟩ := (Option.any_eq_true _ _).mp hrun
  obtain ⟨sys', hsys'⟩ := Option.isSome_iff_exists.mp hrestart
  refine ⟨sys, sys', hsys, hsys', ?_⟩
  exact (revisions_survive_restarts (by decide +kernel)).1 _ 0 [] sys sys' rfl hsys hsys'

/-- Both conditions are needed. A `delete_range` that matches nothing returns revision 2 and
writes no record, so after a restart the next put is assigned revision 2 again; and a
compaction drops the tombstone that carried the current revision. -/
theorem revision_reused_after_restart :
    (∃ sys sys' header s s', System.run ⟨fresh, none⟩ [.request (.put { key := [1] })] = some sys ∧
      exec (handle (.deleteRange { key := [9] })) sys.store
        = (.ok (.deleteRange { header, deleted := 0, prevKvs := [] }), s) ∧
      System.step { sys with store := s } (.restart 0) = some sys' ∧
      sys'.store.currentRevision < s.currentRevision ∧
      answer sys'.store (.put { key := [2] }) = some s' ∧
      ∃ rec ∈ s'.wal.log.drop sys'.store.wal.log.length,
        rec.revision = header.revision.toUInt64) ∧
    ∃ sys sys', System.run ⟨fresh, none⟩ ([.request (.put { key := [1] }),
        .request (.deleteRange { key := [1] })] ++ compacting [] []) = some sys ∧
      sys.step (.restart 0) = some sys' ∧
      sys'.store.currentRevision < sys.store.currentRevision := by
  constructor
  · have hrun : ((System.run ⟨fresh, none⟩ [.request (.put { key := [1] })]).any fun sys =>
        match exec (handle (.deleteRange { key := [9] })) sys.store with
        | (.ok (.deleteRange resp), s) =>
            decide (resp.deleted = 0 ∧ resp.prevKvs = []) &&
              (System.step { sys with store := s } (.restart 0)).any fun sys' =>
                decide (sys'.store.currentRevision < s.currentRevision) &&
                  (answer sys'.store (.put { key := [2] })).any fun s' =>
                    decide (∃ rec ∈ s'.wal.log.drop sys'.store.wal.log.length,
                      rec.revision = resp.header.revision.toUInt64)
        | _ => false) = true := by
      decide +kernel
    obtain ⟨sys, hsys, hrun⟩ := (Option.any_eq_true _ _).mp hrun
    split at hrun
    · next resp s hexec =>
        rw [Bool.and_eq_true, Option.any_eq_true] at hrun
        obtain ⟨hresp, sys', hsys', hrun⟩ := hrun
        rw [Bool.and_eq_true, Option.any_eq_true] at hrun
        obtain ⟨hlt, s', hs', hrec⟩ := hrun
        obtain ⟨header, deleted, prevKvs⟩ := resp
        obtain ⟨rfl, rfl⟩ := of_decide_eq_true hresp
        exact ⟨sys, sys', header, s, s', hsys, hexec, hsys', of_decide_eq_true hlt, hs',
          of_decide_eq_true hrec⟩
    · cases hrun
  · have hrun : ((System.run ⟨fresh, none⟩ ([.request (.put { key := [1] }),
        .request (.deleteRange { key := [1] })] ++ compacting [] [])).any fun sys =>
          (sys.step (.restart 0)).any fun sys' =>
            decide (sys'.store.currentRevision < sys.store.currentRevision)) = true := by
      decide +kernel
    obtain ⟨sys, hsys, hrun⟩ := (Option.any_eq_true _ _).mp hrun
    obtain ⟨sys', hsys', hlt⟩ := (Option.any_eq_true _ _).mp hrun
    exact ⟨sys, sys', hsys, hsys', of_decide_eq_true hlt⟩

end Rudurru
