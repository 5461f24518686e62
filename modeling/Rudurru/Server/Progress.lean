import Rudurru.Server.StreamSound

/-!
# Rudurru.Server.Progress

Progress responses against events.

The revision of a progress response is read from the store, the events it vouches for come through
the channels of their watchers. Nothing orders the two, so a response overtakes what is still in a
channel when its revision is read (`progress_overtakes_event`). Where the channels it speaks for are
empty at that moment it does not (`progress_after_events`): later events have later revisions.

What carries the argument is an account of each forwarder (`Forwarder.Faithful`): all that it took
from its channel is on the stream, but for the one event it may be sending.

The revision of a tick or of a manual response is read at one moment and put on the stream at a
later one. In between the loop or the forwarder has it in its hand, and the invariant has to say
that it is still true there: what comes to the channels afterwards is at a later revision, since the
counter has moved past the one that was read. So the condition of the theorem is on the moment of
reading only.
-/

namespace Rudurru

/-- The events up to a revision, as they are put on the stream. -/
def settled (watchId : Int64) (channel : List WatchEvent) (revision : UInt64) : List Message :=
  (channel.filter (·.revision ≤ revision)).map (.event watchId)

theorem settled_append {watchId : Int64} {channel sent : List WatchEvent} {revision next : UInt64}
    (hlt : revision.toNat < next.toNat) (hsent : ∀ event ∈ sent, event.revision = next) :
    settled watchId (channel ++ sent) revision = settled watchId channel revision := by
  have hnone : sent.filter (·.revision ≤ revision) = [] := by
    refine List.filter_eq_nil_iff.mpr ?_
    intro event hevent hle
    have hle := UInt64.le_iff_toNat_le.mp (of_decide_eq_true hle)
    rw [hsent event hevent] at hle
    exact absurd hlt (Nat.not_lt.mpr hle)
  rw [settled, List.filter_append, hnone, List.append_nil]
  rfl

/-- All of the channel is there, so what came up to a revision is. -/
theorem settled_sublist {watchId : Int64} {channel : List WatchEvent} {out : List Message}
    (h : (channel.map (Message.event watchId)).Sublist out) (revision : UInt64) :
    (settled watchId channel revision).Sublist out :=
  (List.filter_sublist.map _).trans h

/-! ### Forwarders -/

/-- How many events a forwarder has put on the stream. -/
def Forwarder.done (f : Forwarder) : Nat := if f.isForwarding then f.taken - 1 else f.taken

/-- What a forwarder took from its channel is on the stream, but for the event in its hand, and the
tick in its hand vouches for nothing that is not. -/
structure Forwarder.Faithful (nextRev : UInt64) (channel : List WatchEvent) (out : List Message)
    (f : Forwarder) : Prop where
  taken_le : f.taken ≤ channel.length
  sent : f.state ≠ .ended → ((channel.take f.done).map (Message.event f.watchId)).Sublist out
  inHand : ∀ watchId event, f.state = .sending (.event watchId event) →
    watchId = f.watchId ∧ channel.take f.taken = channel.take f.done ++ [event]
  tick : ∀ watchId revision, f.state = .sending (.tick watchId revision) →
    watchId = f.watchId ∧ revision.toNat < nextRev.toNat ∧
      (settled f.watchId channel revision).Sublist out

theorem Forwarder.done_le (f : Forwarder) : f.done ≤ f.taken := by
  unfold done
  split
  · exact Nat.sub_le _ _
  · exact Nat.le_refl _

theorem Forwarder.done_eq {f : Forwarder} (h : f.isForwarding = false) : f.done = f.taken := by
  rw [done, h]
  rfl

namespace Forwarder.Faithful

variable {nextRev : UInt64} {channel : List WatchEvent} {out : List Message} {f : Forwarder}

/-- A forwarder that has just started. -/
theorem fresh (htaken : f.taken = 0) (hidle : f.state = .idle) :
    f.Faithful nextRev channel out where
  taken_le := by rw [htaken]; exact Nat.zero_le _
  sent := by
    intro _
    have hdone : f.done = 0 := Nat.le_zero.mp (htaken ▸ f.done_le)
    rw [hdone, List.take_zero]
    exact List.nil_sublist _
  inHand := by rw [hidle]; nofun
  tick := by rw [hidle]; nofun

/-- Something else is put on the stream. -/
theorem put (hf : f.Faithful nextRev channel out) (msgs : List Message) :
    f.Faithful nextRev channel (out ++ msgs) where
  taken_le := hf.taken_le
  sent := fun hended => (hf.sent hended).trans (List.sublist_append_left _ _)
  inHand := hf.inHand
  tick := by
    intro watchId revision hstate
    obtain ⟨hid, hlt, hsettled⟩ := hf.tick watchId revision hstate
    exact ⟨hid, hlt, hsettled.trans (List.sublist_append_left _ _)⟩

/-- Events of the next revision come into the channel. -/
theorem grow (hf : f.Faithful nextRev channel out) {nextRev' : UInt64} {sent : List WatchEvent}
    (hsent : ∀ event ∈ sent, event.revision = nextRev) (hle : nextRev.toNat ≤ nextRev'.toNat) :
    f.Faithful nextRev' (channel ++ sent) out := by
  have htaken : (channel ++ sent).take f.taken = channel.take f.taken :=
    List.take_append_of_le_length hf.taken_le
  have hdone : (channel ++ sent).take f.done = channel.take f.done :=
    List.take_append_of_le_length (Nat.le_trans f.done_le hf.taken_le)
  refine ⟨?_, ?_, ?_, ?_⟩
  · rw [List.length_append]
    exact Nat.le_add_right_of_le hf.taken_le
  · rw [hdone]
    exact hf.sent
  · rw [htaken, hdone]
    exact hf.inHand
  · intro watchId revision hstate
    obtain ⟨hid, hlt, hsettled⟩ := hf.tick watchId revision hstate
    rw [settled_append hlt hsent]
    exact ⟨hid, Nat.lt_of_lt_of_le hlt hle, hsettled⟩

theorem ended (hf : f.Faithful nextRev channel out) :
    ({ f with state := .ended } : Forwarder).Faithful nextRev channel out :=
  ⟨hf.taken_le, fun hended => absurd rfl hended, nofun, nofun⟩

theorem ticked (hf : f.Faithful nextRev channel out) (hidle : f.state = .idle) :
    ({ f with state := .ticked } : Forwarder).Faithful nextRev channel out := by
  have hdone : f.done = f.taken := done_eq (by rw [isForwarding, hidle])
  have hsent := hf.sent (by rw [hidle]; nofun)
  rw [hdone] at hsent
  exact ⟨hf.taken_le, fun _ => hsent, nofun, nofun⟩

theorem recv (hf : f.Faithful nextRev channel out) (hidle : f.state = .idle) {event : WatchEvent}
    (hevent : channel[f.taken]? = some event) :
    ({ f with taken := f.taken + 1, state := .sending (.event f.watchId event) } :
      Forwarder).Faithful nextRev channel out := by
  obtain ⟨hlt, rfl⟩ := List.getElem?_eq_some_iff.mp hevent
  have hdone : f.done = f.taken := done_eq (by rw [isForwarding, hidle])
  refine ⟨hlt, ?_, ?_, nofun⟩
  · intro _
    show ((channel.take (f.taken + 1 - 1)).map (Message.event f.watchId)).Sublist out
    rw [Nat.add_sub_cancel, ← hdone]
    exact hf.sent (by rw [hidle]; nofun)
  · intro watchId event hsending
    cases hsending
    refine ⟨rfl, ?_⟩
    show channel.take (f.taken + 1) = channel.take (f.taken + 1 - 1) ++ [channel[f.taken]]
    rw [Nat.add_sub_cancel, List.take_append_getElem hlt]

/-- A forwarder that is not behind has put everything up to any revision on the stream. -/
theorem settled_of_drained (hf : f.Faithful nextRev channel out) (hended : f.state ≠ .ended)
    (hdrained : f.isDrained channel = true) (revision : UInt64) :
    (settled f.watchId channel revision).Sublist out := by
  obtain ⟨hlength, hforwarding⟩ := isDrained_iff.mp hdrained
  have hsent := hf.sent hended
  rw [done_eq hforwarding, List.take_of_length_le hlength] at hsent
  exact settled_sublist hsent revision

theorem readTick (hf : f.Faithful nextRev channel out) (hticked : f.state = .ticked)
    (hdrained : f.isDrained channel = true) {revision : UInt64}
    (hlt : revision.toNat < nextRev.toNat) :
    ({ f with state := .sending (.tick f.watchId revision) } : Forwarder).Faithful nextRev channel
      out := by
  have hended : f.state ≠ .ended := by rw [hticked]; nofun
  have hdone : f.done = f.taken := done_eq (by rw [isForwarding, hticked])
  have hsent := hf.sent hended
  rw [hdone] at hsent
  refine ⟨hf.taken_le, fun _ => hsent, nofun, ?_⟩
  intro watchId revision hsending
  cases hsending
  exact ⟨rfl, hlt, hf.settled_of_drained hended hdrained _⟩

/-- What the forwarder has in its hand is put on the stream. -/
theorem forward (hf : f.Faithful nextRev channel out) {msg : Message}
    (hsending : f.state = .sending msg) :
    ({ f with state := .idle } : Forwarder).Faithful nextRev channel (out ++ [msg]) := by
  have hsent := hf.sent (by rw [hsending]; nofun)
  refine ⟨hf.taken_le, ?_, nofun, nofun⟩
  intro _
  show ((channel.take f.taken).map (Message.event f.watchId)).Sublist (out ++ [msg])
  cases msg with
  | event watchId event =>
      obtain ⟨rfl, htake⟩ := hf.inHand watchId event hsending
      rw [htake, List.map_append]
      exact hsent.append (List.Sublist.refl _)
  | reply _ | canceled _ _ | progress _ | tick _ _ =>
      have hdone : f.done = f.taken := done_eq (by rw [isForwarding, hsending])
      rw [hdone] at hsent
      exact hsent.trans (List.sublist_append_left _ _)

end Forwarder.Faithful

/-! ### Streams -/

/-- Every forwarder is faithful, and the progress response in the hand of the loop vouches for
nothing that is not on the stream. -/
structure Stream.Faithful (h : Handoff) (channels : Nat → List WatchEvent) (s : Stream) : Prop where
  forwarders : ∀ f ∈ s.forwarders, f.Faithful h.sys.store.nextRev (channels f.create) s.out
  spawn : ∀ msg f, s.loop = .sending msg (some f) → f.taken = 0 ∧ f.state = .idle
  progress : ∀ revision spawn, s.loop = .sending (.progress revision) spawn →
    revision.toNat < h.sys.store.nextRev.toNat ∧
      ∀ n ∈ s.creates, n ∈ h.present → ∀ watchId, h.issued[n]? = some watchId →
        (settled watchId (channels n) revision).Sublist s.out

section

variable {h : Handoff} {channels : Nat → List WatchEvent} {s : Stream}

/-- A forwarder moves on. -/
theorem Stream.Faithful.setForwarder (hs : s.Faithful h channels) (j : Nat) {f : Forwarder}
    (hf : f.Faithful h.sys.store.nextRev (channels f.create) s.out) :
    (s.setForwarder j f).Faithful h channels where
  forwarders := by
    intro g hg
    rcases List.mem_or_eq_of_mem_set hg with hg | rfl
    · exact hs.forwarders g hg
    · exact hf
  spawn := hs.spawn
  progress := hs.progress

/-- Something is put on the stream. -/
theorem Stream.Faithful.put (hs : s.Faithful h channels) (msgs : List Message) :
    Stream.Faithful h channels { s with out := s.out ++ msgs } where
  forwarders := fun f hf => (hs.forwarders f hf).put msgs
  spawn := hs.spawn
  progress := by
    intro revision spawn hloop
    obtain ⟨hlt, hsettled⟩ := hs.progress revision spawn hloop
    refine ⟨hlt, ?_⟩
    intro n hn hpresent watchId hid
    exact (hsettled n hn hpresent watchId hid).trans (List.sublist_append_left _ _)

/-- The loop takes something else in its hand than a progress response. -/
theorem Stream.Faithful.setLoop (hs : s.Faithful h channels) {loop : LoopState}
    (hspawn : ∀ msg f, loop = .sending msg (some f) → f.taken = 0 ∧ f.state = .idle)
    (hprogress : ∀ revision spawn, loop ≠ .sending (.progress revision) spawn) :
    Stream.Faithful h channels { s with loop } where
  forwarders := hs.forwarders
  spawn := hspawn
  progress := fun revision spawn hloop => absurd hloop (hprogress revision spawn)

/-- When the revision of a progress response is read, there is one, and no watcher that the response
speaks for has an event on its way. -/
def Stream.StepDrained (h : Handoff) (channels : Nat → List WatchEvent) (s : Stream) :
    StreamEvent → Prop
  | .progressRequest => h.sys.store.nextRev ≠ 0 ∧
      ∀ f ∈ s.forwarders, h.isRegistered f.create = true → f.isDrained (channels f.create) = true
  | .readTick j => h.sys.store.nextRev ≠ 0 ∧
      ∀ f ∈ s.forwarders[j]?, f.isDrained (channels f.create) = true
  | _ => True

instance (h : Handoff) (channels : Nat → List WatchEvent) (s : Stream) (ev : StreamEvent) :
    Decidable (s.StepDrained h channels ev) :=
  match ev with
  | .progressRequest => inferInstanceAs (Decidable (_ ∧ ∀ f ∈ s.forwarders, _))
  | .readTick j => inferInstanceAs (Decidable (_ ∧ ∀ f ∈ s.forwarders[j]?, _))
  | .endRequests | .replied | .readRevision | .send | .recv _ | .recvNone _ | .tick _ | .forward _
  | .receive | .disconnect => .isTrue trivial

theorem currentRevision_lt {s : StoreState} (hne : s.nextRev ≠ 0) :
    s.currentRevision.toNat < s.nextRev.toNat := by
  have hpos : 0 < s.nextRev.toNat := Nat.pos_of_ne_zero fun h => hne (UInt64.toNat_inj.mp h)
  rw [← toNat_currentRevision hpos]
  exact Nat.lt_succ_self _

/-- A progress request comes when no forwarder is behind. -/
theorem Stream.Faithful.progressRequest (hs : s.Faithful h channels) (hw : s.Wired h)
    (hloop : s.loop = .reading) (hdrained : s.StepDrained h channels .progressRequest) :
    Stream.Faithful h channels
      { s with loop := .sending (.progress h.sys.store.currentRevision) none } where
  forwarders := hs.forwarders
  spawn := by
    intro msg f hsending
    cases hsending
  progress := by
    intro revision spawn hsending
    cases hsending
    refine ⟨currentRevision_lt hdrained.1, ?_⟩
    intro n hn hpresent watchId hid
    rcases hw.spawned (by rw [hloop]; nofun) n hn hpresent with hspawned | hattends
    · obtain ⟨f, hf, rfl⟩ := List.mem_map.mp hspawned
      have hwired := hw.forwarders f hf
      rw [hwired.id] at hid
      cases hid
      exact (hs.forwarders f hf).settled_of_drained (fun hended => hwired.ended hended hpresent)
        (hdrained.2 f hf (Handoff.isRegistered_iff.mpr hpresent)) _
    · rw [hloop] at hattends
      cases hattends

/-- **One event on a stream.** When a revision is read for a progress response, the channels that it
speaks for are empty and their forwarders idle; so it holds of the stream at that moment, and later
events come at later revisions. -/
theorem Stream.Faithful.moves {ev : StreamEvent} {s' : Stream} (hs : s.Faithful h channels)
    (hw : s.Wired h) (hdrained : s.StepDrained h channels ev)
    (hmoves : s.Moves h channels ev s') : s'.Faithful h channels := by
  cases hmoves with
  | progressRequest hloop => exact hs.progressRequest hw hloop hdrained
  | endRequests | readRevision | sendFails =>
      refine hs.setLoop ?_ ?_
      · intro msg f hsending
        cases hsending
      · intro revision spawn hsending
        cases hsending
  | @replied n watchId progressNotify resp hloop hresp =>
      refine hs.setLoop ?_ ?_
      · intro msg f hsending
        split at hsending
        · cases hsending
          exact ⟨rfl, rfl⟩
        · cases hsending
      · intro revision spawn hsending
        cases hsending
  | @send msg spawn hloop =>
      refine ⟨?_, ?_, ?_⟩
      · intro f hf
        rcases List.mem_append.mp hf with hf | hf
        · exact (hs.forwarders f hf).put [msg]
        · rw [Option.mem_toList.mp hf] at hloop
          obtain ⟨htaken, hidle⟩ := hs.spawn msg f hloop
          -- the forwarder starts when its announcement is sent, with nothing taken yet
          exact .fresh htaken hidle
      · intro msg f hsending
        cases hsending
      · intro revision spawn hsending
        cases hsending
  | recv hf hidle hevent =>
      exact hs.setForwarder _ ((hs.forwarders _ (List.mem_of_getElem? hf)).recv hidle hevent)
  | recvNone hf =>
      exact hs.setForwarder _ (hs.forwarders _ (List.mem_of_getElem? hf)).ended
  | tick hf hidle =>
      exact hs.setForwarder _ ((hs.forwarders _ (List.mem_of_getElem? hf)).ticked hidle)
  | tickIgnored => exact hs
  | readTick hf hticked =>
      -- the revision is read with the channel empty, so nothing older is still to come
      exact hs.setForwarder _ ((hs.forwarders _ (List.mem_of_getElem? hf)).readTick hticked
        (hdrained.2 _ hf) (currentRevision_lt hdrained.1))
  | @forward j f msg hf hsending =>
      exact (hs.put [msg]).setForwarder j
        ((hs.forwarders f (List.mem_of_getElem? hf)).forward hsending)
  | receive | disconnect => exact { hs with }

end

/-! ### The server -/

section

variable [Crates]

/-- `next_rev` counts up. -/
theorem Handoff.nextRev_le_of_step {h h' : Handoff} {ev : HandoffEvent}
    (hs : h.sys.store.wal.faults = []) (hev : ∀ now, ev ≠ .server (.restart now))
    (hcounts : ∀ e, ev = .server e → h.sys.StepCounts e) (hstep : h.step ev = some h') :
    h.sys.store.nextRev.toNat ≤ h'.sys.store.nextRev.toNat := by
  cases Handoff.moves_of_step hs hstep with
  | request _ hpub => exact (hpub.toServed.toNat_nextRev (hcounts _ rfl).2).1
  | restart => exact absurd rfl (hev _)
  | phase2 => exact Nat.le_of_eq (congrArg _ (quiet_registerAll _ h.sys.store).nextRev.symm)
  | _ => exact Nat.le_refl _

/-- Every stream is faithful. -/
structure Hub.Faithful (hub : Hub) : Prop where
  wired : hub.Wired
  streams : ∀ i, (hub.streams i).Faithful hub.handoff hub.channels

omit [Crates] in
/-- The server moves beside a stream. -/
theorem Stream.Faithful.sync {hub : Hub} {s : Stream} (hs : s.Faithful hub.handoff hub.channels)
    (hw : s.Wired hub.handoff) (hwired : hub.Wired) {h' : Handoff} (ht' : Tracked h')
    (hext : hub.handoff.Extends h')
    (hle : hub.handoff.sys.store.nextRev.toNat ≤ h'.sys.store.nextRev.toNat) :
    s.Faithful h' (hub.sync h').channels where
  forwarders := by
    intro f hf
    obtain ⟨sent, hsent, hrev, -⟩ := channels_extends ht' hwired.channels hext
      ((hw.forwarders f hf).not_coming hwired.tracked)
    rw [hsent]
    exact (hs.forwarders f hf).grow hrev hle
  spawn := hs.spawn
  progress := by
    intro revision spawn hloop
    obtain ⟨hlt, hsettled⟩ := hs.progress revision spawn hloop
    refine ⟨Nat.lt_of_lt_of_le hlt hle, ?_⟩
    intro n hn hpresent watchId hid
    -- the loop waits for nothing, so the creates of the stream are all answered
    have hcoming : n ∉ hub.handoff.coming := by
      rcases hw.pending n hn with ⟨resp, hresp⟩ | ⟨_, _, hwait⟩
      · exact hwired.tracked.not_waiting_of_answered hresp
      · rw [hloop] at hwait
        cases hwait
    obtain ⟨sent, hsent, hrev, -⟩ := channels_extends ht' hwired.channels hext hcoming
    rw [hsent, settled_append hlt hrev]
    have hissued : hub.handoff.issued[n]? = some watchId := by
      obtain ⟨news, hnews⟩ := hext.issued
      rw [← hnews, List.getElem?_append_left (hw.creates_lt n hn)] at hid
      exact hid
    rcases hext.present hpresent with hpresent | habsurd
    · exact hsettled n hn hpresent watchId hissued
    · exact absurd habsurd hcoming

/-- What the steps of the server and of the streams need. -/
def Hub.StepDrained (hub : Hub) : HubEvent → Prop
  | .handoff (.server ev) => hub.handoff.sys.StepCounts ev
  | .stream i ev => (hub.streams i).StepDrained hub.handoff hub.channels ev
  | _ => True

instance (hub : Hub) (ev : HubEvent) : Decidable (hub.StepDrained ev) :=
  match ev with
  | .handoff (.server ev) => inferInstanceAs (Decidable (hub.handoff.sys.StepCounts ev))
  | .stream i ev =>
      inferInstanceAs (Decidable ((hub.streams i).StepDrained hub.handoff hub.channels ev))
  | .handoff (.create _) | .handoff (.checkpoint _) | .handoff .compactRev | .handoff .admission
  | .handoff .screen | .handoff .openWal | .handoff (.phase1 _) | .handoff .phase2
  | .handoff .reply | .createRequest _ _ | .cancelRequest _ _ | .drop _ _ => .isTrue trivial

/-- The server moves. -/
theorem Hub.Faithful.sync {hub : Hub} (hf : hub.Faithful) {ev : HandoffEvent} {h' : Handoff}
    (hev : ∀ now, ev ≠ .server (.restart now))
    (hcounts : ∀ e, ev = .server e → hub.handoff.sys.StepCounts e)
    (hstep : hub.handoff.step ev = some h') : (hub.sync h').Faithful := by
  obtain ⟨hsync, hext⟩ := hf.wired.sync hev hstep
  have hle := Handoff.nextRev_le_of_step hf.wired.faults hev hcounts hstep
  exact ⟨hsync, fun i => (hf.streams i).sync (hf.wired.streams i) hf.wired hsync.tracked hext hle⟩

/-- **One event of the server.** -/
theorem Hub.Faithful.step {hub hub' : Hub} {ev : HubEvent} (hf : hub.Faithful)
    (hdrained : hub.StepDrained ev) (hstep : hub.step ev = some hub') : hub'.Faithful := by
  have hw' := hf.wired.step hstep
  cases Hub.moves_of_step hstep with
  | handoff hev hh' =>
      refine hf.sync (besideStreams_ne_restart hev) ?_ hh'
      intro e he
      subst he
      exact hdrained
  | @createRequest i req hloop =>
      have hcreate : hub.handoff.step (.create req) = some (hub.handoff.create req) := rfl
      have hsync := hf.sync (fun _ h => by cases h) (fun _ h => by cases h) hcreate
      refine ⟨hw', Hub.forall_setStream hsync.streams ⟨(hsync.streams i).forwarders, ?_, ?_⟩⟩
      · intro msg f hsending
        cases hsending
      · intro revision spawn hsending
        cases hsending
  | @cancelRequest i watchId h' hloop hh' =>
      have hsync := hf.sync (fun _ h => by cases h)
        (fun e he => by cases he; exact trivial) hh'
      refine ⟨hw', Hub.forall_setStream hsync.streams ((hsync.streams i).setLoop ?_ ?_)⟩
      · intro msg f hsending
        cases hsending
      · intro revision spawn hsending
        cases hsending
  | @drop i j f h' hj hh' =>
      have hsync := hf.sync (fun _ h => by cases h)
        (fun e he => by cases he; exact trivial) hh'
      have hs := hsync.streams i
      exact ⟨hw', Hub.forall_setStream hsync.streams
        (hs.setForwarder j (hs.forwarders f (List.mem_of_getElem? hj)).ended)⟩
  | @stream i ev s' hmoves =>
      exact ⟨hw', Hub.forall_setStream hf.streams
        ((hf.streams i).moves (hf.wired.streams i) hdrained hmoves)⟩

omit [Crates] in
theorem Hub.faithful_start {sys : System} (hs : sys.store.wal.faults = [])
    (hw : sys.store.watchers = []) : (Hub.start sys).Faithful where
  wired := Hub.wired_start hs hw
  streams := fun i => ⟨by simp [Hub.start], by simp [Hub.start], by simp [Hub.start]⟩

/-- **Progress does not overtake events**, in every run where revisions for progress responses are
read when no watcher they speak for is behind: what is put on a stream with a revision comes after
the events up to that revision. -/
theorem progress_after_events {now : Nat} {contents : Bytes} {sys₀ : System}
    (hboot : System.boot now contents = some sys₀) {evs : List HubEvent} {hub : Hub}
    (hrun : (Hub.start sys₀).run evs = some hub)
    (hdrained : Trace.Along Hub.step Hub.StepDrained (.start sys₀) evs) {ev : HubEvent} {hub' : Hub}
    (hstep : hub.step ev = some hub') {i : Nat} {msg : Message}
    (hput : (hub'.streams i).out = (hub.streams i).out ++ [msg]) :
    (∀ revision, msg = .progress revision → ∀ p ∈ hub.watchersOf i,
      (settled p.1.watchId p.1.sender revision).Sublist (hub.streams i).out) ∧
    ∀ watchId revision, msg = .tick watchId revision →
      ∃ j f, ev = .stream i (.forward j) ∧ (hub.streams i).forwarders[j]? = some f ∧
        (settled watchId (hub.channels f.create) revision).Sublist (hub.streams i).out := by
  obtain ⟨s₀, hopen, rfl⟩ := boot_eq_some hboot
  have hstart : (Hub.start ⟨s₀, none⟩).Faithful := by
    obtain ⟨_, _, _, _, _, rfl⟩ := openStore_eq_ok hopen
    exact Hub.faithful_start rfl rfl
  have hf := Trace.invariant (fun _ _ _ hf hev hstep => hf.step hev hstep) hstart hdrained hrun
  have hs := hf.streams i
  have hw := hf.wired.streams i
  -- a progress response comes from the loop of the stream, on request, or from a forwarder, on its
  -- tick
  rcases Hub.put_of_step hstep hput with ⟨spawn, -, hloop⟩ | ⟨j, f, rfl, hj, hsending⟩
  · refine ⟨?_, ?_⟩
    · intro revision hmsg p hp
      subst hmsg
      obtain ⟨hp, hcreate⟩ := List.mem_filter.mp hp
      have hid := hf.wired.tracked.ids (p.2.create, p.1.watchId)
        (List.mem_append_left _ (List.mem_map.mpr ⟨p, hp, rfl⟩))
      rw [← hf.wired.channels p hp]
      exact (hs.progress revision spawn hloop).2 p.2.create (of_decide_eq_true hcreate)
        (mem_present.mpr ⟨p, hp, rfl⟩) p.1.watchId hid
    · intro watchId revision hmsg
      subst hmsg
      have hwired := hw.loop
      rw [hloop] at hwired
      cases hwired.forwardedFor_eq_none
  · have hforwarder := List.mem_of_getElem? hj
    refine ⟨?_, ?_⟩
    · intro revision hmsg
      subst hmsg
      cases (hw.forwarders f hforwarder).sending _ hsending
    · intro watchId revision hmsg
      subst hmsg
      obtain ⟨rfl, -, hsettled⟩ := (hs.forwarders f hforwarder).tick watchId revision hsending
      exact ⟨j, f, rfl, hj, hsettled⟩

end

/-- A progress request after the event of a watch was forwarded. -/
def progressAfterForward : List HubEvent :=
  undisturbedCreate 0 { key := [1], watchId := 7 } 0 ++ ([
    .handoff (.server (.request (.put { key := [1] }))), .stream 0 (.recv 0),
    .stream 0 (.forward 0), .stream 0 .progressRequest] : List HubEvent)

theorem progress_after_forwarded_event :
    ∃ sys₀ hub hub', System.boot 0 [] = some sys₀ ∧
      (Hub.start sys₀).run progressAfterForward = some hub ∧
      hub.step (.stream 0 .send) = some hub' ∧
      (hub'.streams 0).out = (hub.streams 0).out ++ [.progress 1] ∧
      (hub.watchersOf 0).map (·.1.sender.length) = [1] ∧
      ∀ p ∈ hub.watchersOf 0, (settled p.1.watchId p.1.sender 1).Sublist (hub.streams 0).out := by
  have hrun : ((System.boot 0 []).any fun sys₀ =>
      decide (Trace.Along Hub.step Hub.StepDrained (.start sys₀) progressAfterForward) &&
      ((Hub.start sys₀).run progressAfterForward).any fun hub =>
        (hub.step (.stream 0 .send)).any fun hub' =>
          (hub'.streams 0).out = (hub.streams 0).out ++ [.progress 1] ∧
            (hub.watchersOf 0).map (·.1.sender.length) = [1]) = true := by
    decide +kernel
  obtain ⟨sys₀, hboot, hrun⟩ := (Option.any_eq_true _ _).mp hrun
  obtain ⟨hdrained, hrun⟩ := (Bool.and_eq_true _ _).mp hrun
  obtain ⟨hub, hhub, hrun⟩ := (Option.any_eq_true _ _).mp hrun
  obtain ⟨hub', hhub', hrun⟩ := (Option.any_eq_true _ _).mp hrun
  obtain ⟨hput, hqueued⟩ := of_decide_eq_true hrun
  exact ⟨sys₀, hub, hub', hboot, hhub, hhub', hput, hqueued,
    (progress_after_events hboot hhub (of_decide_eq_true hdrained) hhub' hput).1 1 rfl⟩

/-- A progress request while a put is in the channel of its watcher. -/
def progressBeforeForward : List HubEvent :=
  undisturbedCreate 0 { key := [1], watchId := 7 } 0 ++ ([
    .handoff (.server (.request (.put { key := [1] }))), .stream 0 .progressRequest] :
      List HubEvent)

/-- A put between the moment a tick is due and the moment it reads the revision. -/
def putDuringTick : List HubEvent :=
  undisturbedCreate 0 { key := [1], watchId := 7, progressNotify := true } 0 ++ ([
    .stream 0 (.tick 0), .handoff (.server (.request (.put { key := [1] }))),
    .stream 0 (.readTick 0)] : List HubEvent)

theorem progress_overtakes_event :
    ∃ sys₀ hub₁ hub₁' hub₂ hub₂', System.boot 0 [] = some sys₀ ∧
      ((Hub.start sys₀).run progressBeforeForward = some hub₁ ∧
        hub₁.step (.stream 0 .send) = some hub₁' ∧
        (hub₁'.streams 0).out = (hub₁.streams 0).out ++ [.progress 1] ∧
        ∃ p ∈ hub₁.watchersOf 0, ∃ event ∈ p.1.sender, event.revision ≤ 1 ∧
          Message.event p.1.watchId event ∉ (hub₁.streams 0).out) ∧
      (Hub.start sys₀).run putDuringTick = some hub₂ ∧
        hub₂.step (.stream 0 (.forward 0)) = some hub₂' ∧
        (hub₂'.streams 0).out = (hub₂.streams 0).out ++ [.tick 7 1] ∧
        ∃ p ∈ hub₂.watchersOf 0, p.1.watchId = 7 ∧ ∃ event ∈ p.1.sender, event.revision ≤ 1 ∧
          Message.event 7 event ∉ (hub₂.streams 0).out := by
  have hrun : ((System.boot 0 []).any fun sys₀ =>
      (((Hub.start sys₀).run progressBeforeForward).any fun hub₁ =>
        (hub₁.step (.stream 0 .send)).any fun hub₁' =>
          (hub₁'.streams 0).out = (hub₁.streams 0).out ++ [.progress 1] ∧
            ∃ p ∈ hub₁.watchersOf 0, ∃ event ∈ p.1.sender, event.revision ≤ 1 ∧
              Message.event p.1.watchId event ∉ (hub₁.streams 0).out) &&
      ((Hub.start sys₀).run putDuringTick).any fun hub₂ =>
        (hub₂.step (.stream 0 (.forward 0))).any fun hub₂' =>
          (hub₂'.streams 0).out = (hub₂.streams 0).out ++ [.tick 7 1] ∧
            ∃ p ∈ hub₂.watchersOf 0, p.1.watchId = 7 ∧ ∃ event ∈ p.1.sender,
              event.revision ≤ 1 ∧ Message.event 7 event ∉ (hub₂.streams 0).out) = true := by
    decide +kernel
  obtain ⟨sys₀, hboot, hrun⟩ := (Option.any_eq_true _ _).mp hrun
  obtain ⟨hmanual, htick⟩ := (Bool.and_eq_true _ _).mp hrun
  obtain ⟨hub₁, hhub₁, hmanual⟩ := (Option.any_eq_true _ _).mp hmanual
  obtain ⟨hub₁', hhub₁', hmanual⟩ := (Option.any_eq_true _ _).mp hmanual
  obtain ⟨hub₂, hhub₂, htick⟩ := (Option.any_eq_true _ _).mp htick
  obtain ⟨hub₂', hhub₂', htick⟩ := (Option.any_eq_true _ _).mp htick
  obtain ⟨hput₁, hbehind₁⟩ := of_decide_eq_true hmanual
  obtain ⟨hput₂, hbehind₂⟩ := of_decide_eq_true htick
  exact ⟨sys₀, hub₁, hub₁', hub₂, hub₂', hboot, ⟨hhub₁, hhub₁', hput₁, hbehind₁⟩, hhub₂, hhub₂',
    hput₂, hbehind₂⟩

end Rudurru
