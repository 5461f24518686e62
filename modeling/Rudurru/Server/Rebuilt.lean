import Rudurru.Oblivious
import Rudurru.Representation
import Rudurru.Server.Delivery

/-!
# Rudurru.Server.Rebuilt

The events of a run, built twice: live, when `apply` and `apply_delete` change the map, and from
the WAL, when a flush replays it. Live events take the blobs from the map and patch the blob of a
deleted key; a replay takes them from the records, and the previous blob of a key from a map of its
own. The two are the same events (`live_events_rebuilt`), wherever the replay is split between its
phases, as long as the records fit their format.

The live side and the replay are compared write by write (`Follows.replayRecord`). The replay stands
where the keyspace does: for every alive key it knows the blob of its last record, which is the blob
of the entry, and sends it as the previous one. The blob of a deletion is built twice, in the record
from the fields of the entry and in the live event by patching the revision in its blob, and both
are the same bytes.
-/

namespace Rudurru

open Std (ExtTreeMap)

/-! ### Live events -/

/-- A watcher of every key that wants all events as they are. -/
def observer : WatchRegistration :=
  { key := [], rangeEnd := [0], startRevision := 0, sender := [], watchId := 0,
    progressNotify := false, filters := [], prevKv := true, bound := .all }

theorem notifyWatcher_observer (event : WatchEvent) (events : List WatchEvent) :
    StoreState.notifyWatcher event { observer with sender := events }
      = { observer with sender := events ++ [event] } := by
  have hstart : ¬ event.revision < 0 := UInt64.not_lt_zero
  simp [StoreState.notifyWatcher, observer, matchesRange, StoreState.passesFilters, hstart]

section

variable [Crates]

/-- What the observer is sent for some writes. -/
theorem notifyWrites_observer (ws : List Write) (events : List WatchEvent) :
    notifyWrites ws { observer with sender := events }
      = { observer with sender := events ++ ws.map Write.event } := by
  induction ws generalizing events with
  | nil => simp [notifyWrites]
  | cons w ws ih =>
      rw [notifyWrites, List.foldl_cons, notifyWatcher_observer, ← notifyWrites, ih]
      simp

/-- The events that `apply` and `apply_delete` build for a request, as an observer of the store sees
them. -/
def StoreState.built (s : StoreState) (q : Request) : List WatchEvent :=
  (((answer (s.registerWatcher observer) q).bind (·.watchers.getLast?)).map (·.sender)).getD []

/-- The same for an event of the server. What a restart builds nobody sees. -/
def System.builtBy (sys : System) : Event → List WatchEvent
  | .request q => sys.store.built q
  | _ => []

/-- The same for a run. -/
def System.built : System → List Event → List WatchEvent
  | _, [] => []
  | sys, ev :: evs => sys.builtBy ev ++ ((sys.step ev).map fun sys' => sys'.built evs).getD []

/-- The writes behind a request, with the events built for them. -/
theorem published_built {s s' : StoreState} {q : Request} (hs : s.wal.faults = [])
    (h : answer s q = some s') : ∃ ws, Published s ws s' ∧ s.built q = ws.map Write.event := by
  obtain ⟨reg, hobserved⟩ := answer_registerWatcher h observer
  obtain ⟨ws, hpub⟩ := answer_published (s := s.registerWatcher observer) hs hobserved
  have hwatchers := hpub.watchers
  rw [StoreState.registerWatcher, StoreState.registerWatcher, List.map_append] at hwatchers
  obtain ⟨hothers, hlast⟩ := List.append_inj' hwatchers rfl
  have hreg : reg = notifyWrites ws observer := by simpa using hlast
  have hsent := notifyWrites_observer ws []
  refine ⟨ws, ⟨⟨⟨hpub.faults, hpub.contents, hpub.log, hpub.run, hpub.compactRev_le⟩, hpub.rev_eq,
    hpub.nextRev⟩, hothers⟩, ?_⟩
  rw [StoreState.built, hobserved, Option.bind_some, StoreState.registerWatcher,
    List.getLast?_concat, hreg]
  exact congrArg WatchRegistration.sender hsent

/-! ### Events rebuilt from the WAL -/

/-- The observer as a watcher being created. -/
def observing : WatchContext :=
  { pending := { key := [], rangeEnd := [0], startRevision := 0, prevKv := true }
    watchId := 0, bound := .all, eventTx := [], reply := 0 }

omit [Crates] in
/-- Records outside the phase do not count. -/
theorem foldl_replayRecord_filter (inPhase : UInt64 → Bool) (wants : WatchContext → UInt64 → Bool)
    (recs : List KvWalRecord) (st : ReplayState) :
    recs.foldl (replayRecord inPhase wants) st
      = (recs.filter fun rec => inPhase rec.revision).foldl (replayRecord inPhase wants) st := by
  induction recs generalizing st with
  | nil => rfl
  | cons rec recs ih =>
      by_cases hrev : inPhase rec.revision = true
      · rw [List.filter_cons_of_pos (by exact hrev), List.foldl_cons, List.foldl_cons, ih]
      · have hskip : replayRecord inPhase wants st rec = st := by
          simp [replayRecord, Bool.eq_false_iff.mpr hrev]
        rw [List.filter_cons_of_neg (by exact hrev), List.foldl_cons, hskip, ih]

/-- Is this an event of the range that passes the filters? -/
def WatchEvent.wanted (bound : RangeBound) (filters : List Int32) (e : WatchEvent) : Bool :=
  matchesRange bound e.key && StoreState.passesFilters filters e.eventType

/-- The map holds the blobs of the alive keys. -/
def HoldsBlobs (K : Keyspace) (blobs : ExtTreeMap Bytes Bytes) : Prop :=
  ∀ key : Bytes, blobs[key]? = (aliveIn K.keys key).map (·.kvBytes)

/-- A replay that stands where the keyspace does: the blobs of the alive keys, and the events sent
to the observer so far. -/
structure Follows (K : Keyspace) (events : List WatchEvent) (st : ReplayState) : Prop where
  blobs : ∀ key : Bytes, st.prevKvMap[key]? = (aliveIn K.keys key).map (·.kvBytes)
  active : st.active = [observing.receive events]

omit [Crates] in
theorem coherent_empty : Coherent .empty := by
  intro key ks hks
  simp [Keyspace.empty, aliveIn] at hks

/-- The blob of a deletion record is the patched blob of the entry. -/
theorem kvBytes_deleteRecord {key : Bytes} {p : KeyState} {rev : UInt64}
    (hblob : p.kvBytes = makeKvBytes key p) (hfit : (deleteRecord key p rev).Fits) :
    withModRevision p.kvBytes rev = some (deleteRecord key p rev).kvBytes := by
  rw [hblob, makeKvBytes, withModRevision_encodeKv rev (KvWalRecord.Fits.key_length hfit),
    deleteRecord, kvBytes_new]

variable [LawfulCrates]

/-- The event rebuilt from the record of a write is the live one. -/
theorem recordEvent_record {K : Keyspace} {w : Write} (hK : Coherent K) (hw : K.Accepts w)
    (hfit : w.record.Fits) :
    recordEvent w.record w.key ((aliveIn K.keys w.key).map (·.kvBytes)) = w.event := by
  obtain ⟨-, -, hrev⟩ := Write.record_spec hfit
  rw [recordEvent, hrev]
  cases w with
  | put key value lease rev prev =>
      obtain rfl : aliveIn K.keys key = prev := hw
      rw [Write.record, deleted_putRecord]
      rfl
  | delete key rev prev =>
      rw [Write.record, deleted_deleteRecord, Write.event,
        kvBytes_deleteRecord (hK key prev hw.1) hfit]
      show WatchEvent.mk rev _ key _ (((aliveIn K.keys key).map _).getD []) = _
      rw [hw.1]
      rfl

omit [LawfulCrates] in
/-- The blob of a key after a write. -/
theorem kvBytes_apply {K : Keyspace} {w : Write} (hw : K.Accepts w) (hpos : w.rev ≠ 0)
    (key : Bytes) :
    (aliveIn (K.apply w).keys key).map (·.kvBytes)
      = if w.key = key then if w.record.deleted then none else some w.record.kvBytes
        else (aliveIn K.keys key).map (·.kvBytes) := by
  by_cases hkey : w.key = key
  · subst hkey
    rw [if_pos rfl]
    cases w with
    | put k value lease rev prev =>
        obtain rfl : aliveIn K.keys k = prev := hw
        rw [Write.record, deleted_putRecord, if_neg Bool.false_ne_true, kvBytes_putRecord,
          Keyspace.apply, Write.key, aliveIn_insert_self, if_pos isAlive_putEntry]
        rfl
    | delete k rev prev =>
        have hdead : ({ prev with deleteRevision := rev } : KeyState).isAlive = false :=
          decide_eq_false hpos
        rw [Write.record, deleted_deleteRecord, if_pos rfl, Keyspace.apply, Write.key,
          aliveIn_insert_self, hdead]
        rfl
  · rw [if_neg hkey, aliveIn, Keyspace.getElem?_apply_of_ne hkey, ← aliveIn]

/-- The record of a write makes the event that was built for it. -/
theorem sentFor_record {inPhase : UInt64 → Bool} {wants : WatchContext → UInt64 → Bool}
    {K : Keyspace} {blobs : ExtTreeMap Bytes Bytes} {w : Write} (hK : Coherent K)
    (hblobs : HoldsBlobs K blobs) (hw : K.Accepts w) (hfit : w.record.Fits)
    (hin : inPhase w.rev = true) (ctx : WatchContext) :
    sentFor inPhase wants ctx blobs w.record = [w.event].filter fun e =>
      wants ctx e.revision && e.wanted ctx.bound ctx.pending.filters := by
  obtain ⟨-, hkey, hrev⟩ := Write.record_spec hfit
  have hevent := recordEvent_record hK hw hfit
  rw [← hblobs] at hevent
  have htakes : ctx.takes wants w.record w.key
      = (wants ctx w.event.revision && w.event.wanted ctx.bound ctx.pending.filters) := by
    rw [← hevent]
    exact Bool.and_assoc _ _ _
  unfold sentFor
  rw [hrev, hin, hkey]
  dsimp only
  rw [hevent, htakes, List.filter_cons, List.filter_nil]
  rfl

theorem nextBlobs_record {inPhase : UInt64 → Bool} {K : Keyspace}
    {blobs : ExtTreeMap Bytes Bytes} {w : Write} (hblobs : HoldsBlobs K blobs)
    (hw : K.Accepts w) (hfit : w.record.Fits) (hpos : w.rev ≠ 0)
    (hin : inPhase w.rev = true) : HoldsBlobs (K.apply w) (nextBlobs inPhase blobs w.record) := by
  obtain ⟨-, hkey, hrev⟩ := Write.record_spec hfit
  intro key
  rw [kvBytes_apply hw hpos, ← hblobs]
  unfold nextBlobs
  rw [hrev, hin, hkey]
  dsimp only
  by_cases hk : w.key = key
  · subst hk
    rw [if_pos rfl]
    split
    · next h => cases h
    split
    · exact ExtTreeMap.getElem?_erase_self
    · exact ExtTreeMap.getElem?_insert_self
  · rw [if_neg hk]
    split
    · next h => cases h
    split
    · rw [ExtTreeMap.getElem?_erase, if_neg (by simpa using hk)]
    · rw [ExtTreeMap.getElem?_insert, if_neg (by simpa using hk)]

/-- **A replay follows a write**, in the phase the write belongs to. The record gives the blob, the
map of the replay the previous one; together they make the event that the live side made. -/
theorem Follows.replayRecord {K : Keyspace} {events : List WatchEvent} {st : ReplayState}
    (h : Follows K events st) {w : Write} (hK : Coherent K) (hw : K.Accepts w)
    (hfit : w.record.Fits) (hpos : w.rev ≠ 0) {inPhase : UInt64 → Bool}
    {wants : WatchContext → UInt64 → Bool} (hin : inPhase w.rev = true)
    (hwants : ∀ events rev, wants (observing.receive events) rev = true) :
    Follows (K.apply w) (events ++ [w.event]) (replayRecord inPhase wants st w.record) := by
  rw [replayRecord_eq]
  refine ⟨nextBlobs_record h.blobs hw hfit hpos hin, ?_⟩
  have hall : (wants (observing.receive events) w.event.revision
      && w.event.wanted observing.bound observing.pending.filters) = true := by
    rw [hwants]
    rfl
  have hsent : sentFor inPhase wants (observing.receive events) st.prevKvMap w.record
      = [w.event] := by
    rw [sentFor_record hK h.blobs hw hfit hin, List.filter_cons_of_pos (by exact hall),
      List.filter_nil]
  rw [h.active, List.map_singleton, hsent, WatchContext.receive_append]

/-- The same along a run. -/
theorem Follows.foldl {K K' : Keyspace} {ws : List Write} (hrun : Keyspace.Run K ws K') :
    ∀ {events : List WatchEvent} {st : ReplayState}, Follows K events st → Coherent K →
      (∀ w ∈ ws, w.record.Fits) → (∀ w ∈ ws, w.rev ≠ 0) →
      ∀ (inPhase : UInt64 → Bool) (wants : WatchContext → UInt64 → Bool),
        (∀ w ∈ ws, inPhase w.rev = true) →
        (∀ events rev, wants (observing.receive events) rev = true) →
          Follows K' (events ++ ws.map Write.event)
            ((ws.map Write.record).foldl (Rudurru.replayRecord inPhase wants) st) := by
  induction hrun with
  | nil =>
      intro events st h _ _ _ inPhase wants _ _
      simpa using h
  | @cons K K' w ws hw _ ih =>
      intro events st h hK hfit hpos inPhase wants hin hwants
      have hnext := h.replayRecord hK hw (hfit w (by simp)) (hpos w (by simp)) (hin w (by simp))
        hwants
      have hrest := ih hnext (hK.apply hw) (fun v hv => hfit v (by simp [hv]))
        (fun v hv => hpos v (by simp [hv])) inPhase wants (fun v hv => hin v (by simp [hv])) hwants
      simpa using hrest

/-! ### A run and its WAL -/

/-- From the counter of one state on to that of another, at which some writes were made. -/
structure Counts (sys : System) (vs : List Write) (sys' : System) : Prop where
  nextRev_le : sys.store.nextRev.toNat ≤ sys'.store.nextRev.toNat
  le_rev : ∀ v ∈ vs, sys.store.nextRev.toNat ≤ v.rev.toNat

/-- A request logs the writes whose events it builds; only a restart sets the counter back. -/
theorem Logged.step_built {ws : List Write} {sys sys' : System} {ev : Event} (h : Logged ws sys)
    (hok : sys.StepOk ev) (hev : ev.isSwap = false) (hstep : sys.step ev = some sys') :
    ∃ vs, Logged (ws ++ vs) sys' ∧ sys.builtBy ev = vs.map Write.event ∧
      (ev.isRestart = false → Counts sys vs sys') := by
  obtain ⟨hfit, hcounts⟩ := hok
  have hquiet : ∀ s' c, Quiet sys.store s' → ∃ vs, Logged (ws ++ vs) ⟨s', c⟩ ∧
      [] = vs.map Write.event ∧ (ev.isRestart = false → Counts sys vs ⟨s', c⟩) := by
    intro s' c hq
    refine ⟨[], by simpa using h.quiet hq c, rfl, fun _ => ⟨?_, by simp⟩⟩
    show _ ≤ s'.nextRev.toNat
    rw [hq.nextRev]
  cases System.moves_of_step h.faults hstep with
  | @request q _ s' hq _ =>
      obtain ⟨vs, hpub, hbuilt⟩ := published_built h.faults hq
      have hserved := hpub.toServed
      refine ⟨vs, h.served hserved ?_ hcounts.2, hbuilt, fun _ => ⟨?_, ?_⟩⟩
      · intro w hw
        refine hfit s' hq _ ?_
        rw [hserved.log]
        exact List.mem_append_right _ (List.mem_map_of_mem hw)
      · exact (hserved.toNat_nextRev hcounts.2).1
      · intro v hv
        rw [hserved.rev_eq v hv]
  | watch hq => exact hquiet _ _ hq
  | cancelWatch hq => exact hquiet _ _ hq
  | compactA | compactB | compactFails => exact hquiet _ _ (.refl _)
  | compactC => cases hev
  | restart hopen =>
      exact ⟨[], by simpa using h.restart hopen, rfl, fun hrestart => by cases hrestart⟩

/-- A run logs the writes whose events it builds. -/
theorem Logged.run_built {evs : List Event} {ws : List Write} {sys sys' : System}
    (h : Logged ws sys) (hrun : System.run sys evs = some sys')
    (hok : Trace.Along System.step System.StepOk sys evs)
    (hswap : ∀ ev ∈ evs, ev.isSwap = false) :
    ∃ vs, Logged (ws ++ vs) sys' ∧ sys.built evs = vs.map Write.event ∧
      ((∀ ev ∈ evs, ev.isRestart = false) → Counts sys vs sys') := by
  induction evs generalizing sys ws with
  | nil =>
      cases hrun
      exact ⟨[], by simpa using h, rfl, fun _ => ⟨Nat.le_refl _, by simp⟩⟩
  | cons ev evs ih =>
      rw [System.run, Trace.run_cons, Option.bind_eq_some_iff] at hrun
      obtain ⟨sys₁, hstep, hrest⟩ := hrun
      obtain ⟨vs, hvs, hbuilt, hcounts⟩ := h.step_built hok.1 (hswap ev (by simp)) hstep
      obtain ⟨us, hus, hbuilt', hcounts'⟩ := ih hvs hrest (hok.2 sys₁ hstep)
        (fun ev' hev' => hswap ev' (by simp [hev']))
      refine ⟨vs ++ us, by simpa using hus, ?_, ?_⟩
      · rw [System.built, hstep, Option.map_some, Option.getD_some, hbuilt, hbuilt',
          List.map_append]
      · intro hrestart
        obtain ⟨hle, hrev⟩ := hcounts (hrestart ev (by simp))
        obtain ⟨hle', hrev'⟩ := hcounts' fun ev' hev' => hrestart ev' (by simp [hev'])
        refine ⟨Nat.le_trans hle hle', ?_⟩
        intro v hv
        rcases List.mem_append.mp hv with hv | hv
        · exact hrev v hv
        · exact Nat.le_trans hle (hrev' v hv)

omit [LawfulCrates] in
theorem System.built_append {sys sys₁ : System} {evs evs' : List Event}
    (hrun : System.run sys evs = some sys₁) :
    sys.built (evs ++ evs') = sys.built evs ++ sys₁.built evs' := by
  induction evs generalizing sys with
  | nil =>
      cases hrun
      rfl
  | cons ev evs ih =>
      rw [System.run, Trace.run_cons, Option.bind_eq_some_iff] at hrun
      obtain ⟨sys₂, hstep, hrest⟩ := hrun
      rw [List.cons_append, System.built, System.built, hstep, Option.map_some, Option.map_some,
        Option.getD_some, Option.getD_some, ih hrest, List.append_assoc]

omit [LawfulCrates] in
theorem Logged.rev_le_current {ws : List Write} {sys : System} (h : Logged ws sys) {w : Write}
    (hw : w ∈ ws) : w.rev ≤ sys.store.currentRevision := by
  have hcurrent := toNat_currentRevision h.nextRev_pos
  have hbelow := (h.below w hw).2
  rw [UInt64.le_iff_toNat_le]
  omega

omit [Crates] [LawfulCrates] in
theorem Counts.current_lt {sys sys' : System} {vs : List Write} (h : Counts sys vs sys')
    (hpos : 0 < sys.store.nextRev.toNat) {v : Write} (hv : v ∈ vs) :
    sys.store.currentRevision < v.rev := by
  have hcurrent := toNat_currentRevision hpos
  have hrev := h.le_rev v hv
  rw [UInt64.lt_iff_toNat_lt]
  omega

/-- The two scans of a flush read the writes before its checkpoint, and those after it. -/
theorem Logged.flush_scans {ws vs : List Write} {sys₁ sys : System} (h₁ : Logged ws sys₁)
    (h : Logged (ws ++ vs) sys) (hcounts : Counts sys₁ vs sys) {n : Nat}
    (hn : sys₁.store.wal.contents.length ≤ n) (hle : n ≤ sys.store.wal.contents.length) :
    (scanKvFile (sys.store.wal.contents.take n) 0).1.filter
        (·.revision ≤ sys₁.store.currentRevision) = ws.map Write.record ∧
      (scanKvFile sys.store.wal.contents sys₁.store.wal.contents.length).1.filter
        (sys₁.store.currentRevision < ·.revision) = vs.map Write.record := by
  have hwf := wellFormed_of_fits h.fits
  have hbefore : ∀ rec ∈ ws.map Write.record, rec.revision ≤ sys₁.store.currentRevision := by
    intro rec hrec
    obtain ⟨w, hw, rfl⟩ := List.mem_map.mp hrec
    rw [(Write.record_spec (h₁.fits w hw)).2.2]
    exact h₁.rev_le_current hw
  have hafter : ∀ rec ∈ vs.map Write.record, sys₁.store.currentRevision < rec.revision := by
    intro rec hrec
    obtain ⟨v, hv, rfl⟩ := List.mem_map.mp hrec
    rw [(Write.record_spec (h.fits v (by simp [hv]))).2.2]
    exact hcounts.current_lt h₁.nextRev_pos hv
  rw [h.contents] at hle ⊢
  rw [h₁.contents] at hn ⊢
  rw [List.map_append] at hwf hle ⊢
  exact ⟨filter_scanKvFile_take hwf hbefore hafter hn hle, filter_scanKvFile_offset hwf hafter⟩

/-- **Live and replayed events are the same.** Take a run of the server without a swap of the WAL in
which every record fits its format and the counters do not wrap. A flush with its checkpoint
anywhere since the last restart, which in phase 1 reads the file as far beyond the checkpoint as it
happens to get, rebuilds the events that the run has built. -/
theorem live_events_rebuilt {evs₁ evs₂ : List Event} {sys₁ sys : System}
    (hrun₁ : System.run ⟨fresh, none⟩ evs₁ = some sys₁) (hrun₂ : System.run sys₁ evs₂ = some sys)
    (hok : Trace.Along System.step System.StepOk ⟨fresh, none⟩ (evs₁ ++ evs₂))
    (hswap : ∀ ev ∈ evs₁ ++ evs₂, ev.isSwap = false)
    (hlive : ∀ ev ∈ evs₂, ev.isRestart = false) {n : Nat}
    (hn : (currentCheckpoint sys₁.store).2 ≤ n) (hle : n ≤ sys.store.wal.contents.length) :
    (flushPhase2 sys.store.wal.contents (currentCheckpoint sys₁.store).1
      (currentCheckpoint sys₁.store).2
      (flushPhase1 (sys.store.wal.contents.take n) (currentCheckpoint sys₁.store).1
        [observing])).active
      = [observing.receive (System.built ⟨fresh, none⟩ (evs₁ ++ evs₂))] := by
  obtain ⟨hok₁, hok₂⟩ := Trace.along_append.mp hok
  obtain ⟨ws, hws, hbuilt₁, -⟩ := logged_fresh.run_built hrun₁ hok₁
    (fun ev hev => hswap ev (by simp [hev]))
  obtain ⟨vs, hvs, hbuilt₂, hcounts⟩ := hws.run_built hrun₂ (hok₂ sys₁ hrun₁)
    (fun ev hev => hswap ev (by simp [hev]))
  rw [List.nil_append] at hws hvs
  have hcounts := hcounts hlive
  obtain ⟨hscan₁, hscan₂⟩ := hws.flush_scans hvs hcounts hn hle
  -- the replay goes through the keyspaces of the run
  obtain ⟨K, hK₁, hK₂⟩ := hvs.run.of_append
  have hstart : Follows .empty [] ⟨∅, [observing]⟩ := ⟨by simp [Keyspace.empty, aliveIn], by simp⟩
  have hphase₁ := hstart.foldl hK₁ coherent_empty hws.fits (fun w hw => (hws.below w hw).1)
    (· ≤ sys₁.store.currentRevision) (fun ctx rev => rev ≥ ctx.pending.startRevision)
    (fun w hw => decide_eq_true (hws.rev_le_current hw)) (fun _ _ => decide_eq_true UInt64.zero_le)
  have hphase₂ := hphase₁.foldl hK₂ (coherent_empty.run hK₁) (fun v hv => hvs.fits v (by simp [hv]))
    (fun v hv => (hvs.below v (by simp [hv])).1) (· > sys₁.store.currentRevision) (fun _ _ => true)
    (fun v hv => decide_eq_true (hcounts.current_lt hws.nextRev_pos hv)) (fun _ _ => rfl)
  rw [← hscan₁, ← foldl_replayRecord_filter, ← hscan₂] at hphase₂
  have hflush := hphase₂.active
  rw [← foldl_replayRecord_filter] at hflush
  rw [System.built_append hrun₁, hbuilt₁, hbuilt₂]
  exact hflush

end

/-- A key is put, updated, deleted with its lease and put again across a restart; the checkpoint is
before the last two writes, and phase 1 reads part of the record after it. -/
theorem live_events_rebuilt_across_checkpoint :
    ∃ sys₁ sys, System.run ⟨fresh, none⟩ [.request (.leaseGrant 0 7 60),
        .request (.put { key := [1], lease := 7 }), .restart 0,
        .request (.put { key := [1], value := [2], ignoreLease := true }),
        .request (.leaseRevoke 7)] = some sys₁ ∧
      System.run sys₁ [.request (.put { key := [1] }), .request (.deleteRange { key := [1] })]
        = some sys ∧
      (flushPhase2 sys.store.wal.contents (currentCheckpoint sys₁.store).1
        (currentCheckpoint sys₁.store).2
        (flushPhase1 (sys.store.wal.contents.take (sys₁.store.wal.contents.length + 5))
          (currentCheckpoint sys₁.store).1 [observing])).active
        = [observing.receive (System.built ⟨fresh, none⟩ ([.request (.leaseGrant 0 7 60),
            .request (.put { key := [1], lease := 7 }), .restart 0,
            .request (.put { key := [1], value := [2], ignoreLease := true }),
            .request (.leaseRevoke 7)] ++
              [.request (.put { key := [1] }), .request (.deleteRange { key := [1] })]))] := by
  have hrun : (System.run ⟨fresh, none⟩ [.request (.leaseGrant 0 7 60),
      .request (.put { key := [1], lease := 7 }), .restart 0,
      .request (.put { key := [1], value := [2], ignoreLease := true }),
      .request (.leaseRevoke 7)]).any (fun sys₁ =>
        (System.run sys₁ [.request (.put { key := [1] }),
          .request (.deleteRange { key := [1] })]).any fun sys =>
            decide (sys₁.store.wal.contents.length + 5 ≤ sys.store.wal.contents.length))
              = true := by
    decide +kernel
  obtain ⟨sys₁, hrun₁, hrest⟩ := (Option.any_eq_true _ _).mp hrun
  obtain ⟨sys, hrun₂, hle⟩ := (Option.any_eq_true _ _).mp hrest
  exact ⟨sys₁, sys, hrun₁, hrun₂, live_events_rebuilt hrun₁ hrun₂ (by decide +kernel) (by decide)
    (by decide) (Nat.le_add_right _ 5) (of_decide_eq_true hle)⟩

/-- A record that does not fit its format is not read back: its event is built live only. -/
theorem oversized_put_not_rebuilt :
    ∃ sys, System.run ⟨fresh, none⟩
        [.request (.put { key := [1], value := List.replicate (2 ^ 32 - 43) 0 })] = some sys ∧
      (flushPhase2 sys.store.wal.contents (currentCheckpoint sys.store).1
        (currentCheckpoint sys.store).2
        (flushPhase1 sys.store.wal.contents (currentCheckpoint sys.store).1 [observing])).active
        ≠ [observing.receive (System.built ⟨fresh, none⟩
            [.request (.put { key := [1], value := List.replicate (2 ^ 32 - 43) 0 })])] := by
  have hput : ∀ value : Bytes, ∃ sys event,
      System.run ⟨fresh, none⟩ [.request (.put { key := [1], value })] = some sys ∧
      sys.store.wal.contents = (putRecord [1] value 0 1 none).serialize ∧
      System.built ⟨fresh, none⟩ [.request (.put { key := [1], value })] = [event] :=
    fun value => ⟨_, _, rfl, rfl, rfl⟩
  obtain ⟨sys, event, hrun, hcontents, hbuilt⟩ := hput (List.replicate (2 ^ 32 - 43) 0)
  refine ⟨sys, hrun, ?_⟩
  have hscan₁ : (scanKvFile sys.store.wal.contents 0).1 = [] := by
    rw [hcontents, scanKvFile_oversized List.length_replicate]
  have hscan₂ : (scanKvFile sys.store.wal.contents (currentCheckpoint sys.store).2).1 = [] :=
    scanKvFile_length _
  rw [hbuilt, flushPhase2, flushPhase1, hscan₁, hscan₂]
  intro h
  cases h

end Rudurru
