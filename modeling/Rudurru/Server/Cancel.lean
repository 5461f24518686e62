import Rudurru.Server.StreamSound

/-!
# Rudurru.Server.Cancel

Canceling a watch.

A cancel request takes the watcher off the list, reads the revision and announces the cancellation
on the stream. The forwarder is not told: it goes on with what is in its channel, so events of a
watch can follow the announcement (`event_after_canceled`). They do not when the forwarder had
nothing left (`canceled_is_final`).

What is final is said of the stream: behind the announcement no message carries the watch id. Only a
forwarder sends such messages, so the invariant (`Stream.Cancels`) follows the forwarders of a watch
from the moment its watcher is taken off the list, when the channel gets no more, to the moment the
announcement is put on the stream. There the condition of the theorem asks that channel and hand be
empty, and from then on they stay so.
-/

namespace Rudurru

/-! ### What stands on a stream -/

/-- Does the response say that the watch was created? -/
def Message.announces (watchId : Int64) (msg : Message) : Bool :=
  msg.response.created && msg.response.watchId = watchId

/-- Does the response carry events of the watch? -/
def Message.carries (watchId : Int64) (msg : Message) : Bool :=
  msg.events ≠ [] && msg.response.watchId = watchId

theorem Message.carries_iff {watchId : Int64} {msg : Message} :
    msg.carries watchId = true ↔ ∃ event, msg = .event watchId event := by
  cases msg with
  | event id e => simp [carries, events, response, emptyResponse, eq_comm]
  | reply _ | canceled _ _ | progress _ | tick _ _ => simp [carries, events]

/-- The watch was canceled, and not created again since. -/
def Silenced (watchId : Int64) (out : List Message) : Prop :=
  ∃ before revision after, out = before ++ Message.canceled watchId revision :: after ∧
    ∀ msg ∈ after, msg.announces watchId = false

theorem Silenced.of_concat {watchId : Int64} {out : List Message} {msg : Message}
    (h : Silenced watchId (out ++ [msg])) :
    (∃ revision, msg = .canceled watchId revision) ∨
      Silenced watchId out ∧ msg.announces watchId = false := by
  obtain ⟨before, revision, after, hout, hafter⟩ := h
  rcases List.eq_nil_or_concat after with rfl | ⟨after, last, rfl⟩
  · exact .inl ⟨revision, (List.append_singleton_inj.mp hout).2⟩
  · rw [List.concat_eq_append, ← List.cons_append, ← List.append_assoc] at hout
    obtain ⟨rfl, rfl⟩ := List.append_singleton_inj.mp hout
    refine .inr ⟨⟨before, revision, after, rfl, ?_⟩, hafter _ (by simp)⟩
    exact fun m hm => hafter m (by simp [hm])

/-- No events of a watch come after it was canceled, until it is created again. -/
def Final (out : List Message) : Prop :=
  ∀ before msg after watchId, out = before ++ msg :: after → Silenced watchId before →
    msg.carries watchId = false

theorem Final.concat {out : List Message} (h : Final out) {msg : Message}
    (hmsg : ∀ watchId, Silenced watchId out → msg.carries watchId = false) :
    Final (out ++ [msg]) := by
  intro before m after watchId hout hsilenced
  rcases List.eq_nil_or_concat after with rfl | ⟨after, last, rfl⟩
  · obtain ⟨rfl, rfl⟩ := List.append_singleton_inj.mp hout
    exact hmsg watchId hsilenced
  · rw [List.concat_eq_append, ← List.cons_append, ← List.append_assoc] at hout
    exact h before m after watchId (List.append_singleton_inj.mp hout).1 hsilenced

/-! ### Streams -/

/-- The watch that the loop is canceling. -/
def LoopState.cancels : LoopState → Option Int64
  | .canceling watchId | .sending (.canceled watchId _) _ => some watchId
  | _ => none

/-- Nothing comes from the forwarder any more. -/
structure Forwarder.Spent (h : Handoff) (channels : Nat → List WatchEvent) (f : Forwarder) :
    Prop where
  gone : f.create ∉ h.present
  drained : f.isDrained (channels f.create) = true

/-- The watch that the loop is canceling is gone, and the forwarders of those that are canceled are
spent. -/
structure Stream.Cancels (h : Handoff) (channels : Nat → List WatchEvent) (s : Stream) : Prop where
  final : Final s.out
  gone : ∀ f ∈ s.forwarders, s.loop.cancels = some f.watchId → f.create ∉ h.present
  spent : ∀ watchId, Silenced watchId s.out → ∀ f ∈ s.forwarders, f.watchId = watchId →
    f.Spent h channels

/-- When a cancellation is announced, the forwarders of the watch have nothing left. -/
def Stream.StepFinal (channels : Nat → List WatchEvent) (s : Stream) : StreamEvent → Prop
  | .send => s.closed = false → ∀ f ∈ s.forwarders, s.loop.cancels = some f.watchId →
      f.isDrained (channels f.create) = true
  | _ => True

instance (channels : Nat → List WatchEvent) (s : Stream) (ev : StreamEvent) :
    Decidable (s.StepFinal channels ev) :=
  match ev with
  | .send => inferInstanceAs (Decidable (_ → ∀ f ∈ s.forwarders, _))
  | .progressRequest | .endRequests | .replied | .readRevision | .recv _ | .recvNone _ | .tick _
  | .readTick _ | .forward _ | .receive | .disconnect => .isTrue trivial

section

variable {h : Handoff} {channels : Nat → List WatchEvent} {s : Stream}

/-- A forwarder moves on. -/
theorem Stream.Cancels.setForwarder (hs : s.Cancels h channels) {j : Nat} {f f' : Forwarder}
    (hf : s.forwarders[j]? = some f) (hcreate : f'.create = f.create)
    (hid : f'.watchId = f.watchId)
    (hdrained : f.isDrained (channels f.create) = true → f'.isDrained (channels f.create) = true) :
    (s.setForwarder j f').Cancels h channels where
  final := hs.final
  gone := by
    intro g hg hcancels
    rcases List.mem_or_eq_of_mem_set hg with hg | rfl
    · exact hs.gone g hg hcancels
    · rw [hcreate]
      exact hs.gone f (List.mem_of_getElem? hf) (hid ▸ hcancels)
  spent := by
    intro watchId hsilenced g hg hgid
    rcases List.mem_or_eq_of_mem_set hg with hg | rfl
    · exact hs.spent watchId hsilenced g hg hgid
    · obtain ⟨hgone, hspent⟩ := hs.spent watchId hsilenced f (List.mem_of_getElem? hf) (hid ▸ hgid)
      exact ⟨hcreate ▸ hgone, by rw [hcreate]; exact hdrained hspent⟩

/-- The loop goes on with the cancellation, or with something else. -/
theorem Stream.Cancels.setLoop (hs : s.Cancels h channels) {loop : LoopState}
    (hloop : ∀ watchId, loop.cancels = some watchId → s.loop.cancels = some watchId) :
    Stream.Cancels h channels { s with loop } where
  final := hs.final
  gone := fun f hf hcancels => hs.gone f hf (hloop f.watchId hcancels)
  spent := hs.spent

/-- The loop puts a response on the stream. -/
theorem Stream.Cancels.sent (hs : s.Cancels h channels) (hw : s.Wired h) {msg : Message}
    {spawn : Option Forwarder} (hloop : s.loop = .sending msg spawn) (hopen : s.closed = false)
    (hfinal : s.StepFinal channels .send) :
    Stream.Cancels h channels
      { s with
        loop := .reading
        out := s.out ++ [msg]
        forwarders := s.forwarders ++ spawn.toList } where
  final := by
    refine hs.final.concat ?_
    intro watchId _
    by_contra hcarries
    obtain ⟨event, rfl⟩ := Message.carries_iff.mp (Bool.of_not_eq_false hcarries)
    have hwired := hw.loop
    rw [hloop] at hwired
    cases hwired.forwardedFor_eq_none
  gone := by
    intro f _ hcancels
    cases hcancels
  spent := by
    have hwired := hw.loop
    rw [hloop] at hwired
    intro watchId hsilenced f hf hid
    rcases hsilenced.of_concat with ⟨revision, rfl⟩ | ⟨hsilenced, hannounces⟩
    · -- the message sent is the answer to the cancel: its forwarder must be done by now
      have hcancels : s.loop.cancels = some f.watchId := by
        rw [hloop, hid]
        rfl
      have hold : f ∈ s.forwarders := by
        cases spawn with
        | none => simpa using hf
        | some g =>
            obtain ⟨-, resp, hresp, -⟩ := hwired
            cases hresp
      exact ⟨hs.gone f hold hcancels, hfinal hopen f hold hcancels⟩
    · rcases List.mem_append.mp hf with hf | hf
      · exact hs.spent watchId hsilenced f hf hid
      · -- the forwarder that starts is the one the response announces
        rw [Option.mem_toList.mp hf] at hwired
        obtain ⟨-, resp, rfl, hcreated, hsame⟩ := hwired
        have habsurd : (Message.reply resp).announces watchId = true := by
          rw [← hid, ← hsame]
          simp [Message.announces, Message.response, hcreated]
        rw [hannounces] at habsurd
        cases habsurd

/-- A forwarder puts on the stream what it has in its hand. -/
theorem Stream.Cancels.forward (hs : s.Cancels h channels) (hw : s.Wired h) {j : Nat}
    {f : Forwarder} {msg : Message} (hf : s.forwarders[j]? = some f)
    (hsending : f.state = .sending msg) :
    Stream.Cancels h channels
      { s.setForwarder j { f with state := .idle } with out := s.out ++ [msg] } := by
  have hmem := List.mem_of_getElem? hf
  have hfor := (hw.forwarders f hmem).sending msg hsending
  have hset : (s.setForwarder j { f with state := .idle }).Cancels h channels := by
    refine hs.setForwarder hf rfl rfl ?_
    intro hdrained
    exact Forwarder.isDrained_iff.mpr ⟨(Forwarder.isDrained_iff.mp hdrained).1, rfl⟩
  refine ⟨?_, hset.gone, ?_⟩
  · refine hs.final.concat ?_
    intro watchId hsilenced
    by_contra hcarries
    obtain ⟨event, rfl⟩ := Message.carries_iff.mp (Bool.of_not_eq_false hcarries)
    obtain rfl : watchId = f.watchId := Option.some.inj hfor
    have hspent := hs.spent _ hsilenced f hmem rfl
    have hforwarding := (Forwarder.isDrained_iff.mp hspent.drained).2
    rw [Forwarder.isForwarding, hsending] at hforwarding
    cases hforwarding
  · intro watchId hsilenced
    rcases hsilenced.of_concat with ⟨revision, rfl⟩ | ⟨hsilenced, -⟩
    · cases hfor
    · exact hset.spent watchId hsilenced

/-- **One event on a stream.** A forwarder that is spent sends nothing; the one step that needs the
condition is the one that puts the announcement on the stream. -/
theorem Stream.Cancels.moves {ev : StreamEvent} {s' : Stream} (hs : s.Cancels h channels)
    (hw : s.Wired h) (hfinal : s.StepFinal channels ev) (hmoves : s.Moves h channels ev s') :
    s'.Cancels h channels := by
  cases hmoves with
  | progressRequest | endRequests | replied | sendFails =>
      refine hs.setLoop ?_
      intro watchId hcancels
      cases hcancels
  | readRevision hloop =>
      refine hs.setLoop ?_
      rw [hloop]
      exact fun watchId hcancels => hcancels
  | send hloop hopen => exact hs.sent hw hloop hopen hfinal
  | recv hf hidle hevent =>
      refine hs.setForwarder hf rfl rfl ?_
      intro hdrained
      have hlt := (List.getElem?_eq_some_iff.mp hevent).1
      exact absurd (Forwarder.isDrained_iff.mp hdrained).1 (Nat.not_le.mpr hlt)
  | recvNone hf | tick hf | readTick hf =>
      refine hs.setForwarder hf rfl rfl ?_
      intro hdrained
      exact Forwarder.isDrained_iff.mpr ⟨(Forwarder.isDrained_iff.mp hdrained).1, rfl⟩
  | tickIgnored => exact hs
  | forward hf hsending => exact hs.forward hw hf hsending
  | receive | disconnect => exact { hs with }

end

/-! ### The server -/

section

variable [Crates]

/-- Every stream cancels as it should. -/
structure Hub.Cancels (hub : Hub) : Prop where
  wired : hub.Wired
  streams : ∀ i, (hub.streams i).Cancels hub.handoff hub.channels

omit [Crates] in
/-- The server moves beside a stream. -/
theorem Stream.Cancels.sync {hub : Hub} {s : Stream} (hs : s.Cancels hub.handoff hub.channels)
    (hw : s.Wired hub.handoff) (hwired : hub.Wired) {h' : Handoff} (ht' : Tracked h')
    (hext : hub.handoff.Extends h') : s.Cancels h' (hub.sync h').channels where
  final := hs.final
  gone := by
    intro f hf hcancels
    exact hext.not_present (hs.gone f hf hcancels) ((hw.forwarders f hf).not_coming hwired.tracked)
  spent := by
    intro watchId hsilenced f hf hid
    obtain ⟨hgone, hdrained⟩ := hs.spent watchId hsilenced f hf hid
    have hcoming := (hw.forwarders f hf).not_coming hwired.tracked
    obtain ⟨sent, hsent, -, hnone⟩ := channels_extends ht' hwired.channels hext hcoming
    refine ⟨hext.not_present hgone hcoming, ?_⟩
    rw [hsent, hnone hgone, List.append_nil]
    exact hdrained

/-- The condition on the events of every stream. -/
def Hub.StepFinal (hub : Hub) : HubEvent → Prop
  | .stream i ev => (hub.streams i).StepFinal hub.channels ev
  | _ => True

instance (hub : Hub) (ev : HubEvent) : Decidable (hub.StepFinal ev) :=
  match ev with
  | .stream i ev => inferInstanceAs (Decidable ((hub.streams i).StepFinal hub.channels ev))
  | .handoff _ | .createRequest _ _ | .cancelRequest _ _ | .drop _ _ => .isTrue trivial

/-- The server moves. -/
theorem Hub.Cancels.sync {hub : Hub} (hc : hub.Cancels) {ev : HandoffEvent} {h' : Handoff}
    (hev : ∀ now, ev ≠ .server (.restart now)) (hstep : hub.handoff.step ev = some h') :
    (hub.sync h').Cancels := by
  obtain ⟨hsync, hext⟩ := hc.wired.sync hev hstep
  exact ⟨hsync, fun i => (hc.streams i).sync (hc.wired.streams i) hc.wired hsync.tracked hext⟩

/-- **One event of the server.** Beside the stream nothing comes to a channel without a watcher. -/
theorem Hub.Cancels.step {hub hub' : Hub} {ev : HubEvent} (hc : hub.Cancels)
    (hfinal : hub.StepFinal ev) (hstep : hub.step ev = some hub') : hub'.Cancels := by
  have hw' := hc.wired.step hstep
  cases Hub.moves_of_step hstep with
  | handoff hev hh' => exact hc.sync (besideStreams_ne_restart hev) hh'
  | @createRequest i req hloop =>
      have hcreate : hub.handoff.step (.create req) = some (hub.handoff.create req) := rfl
      have hsync := hc.sync (fun _ h => by cases h) hcreate
      have hs := hsync.streams i
      refine ⟨hw', Hub.forall_setStream hsync.streams ⟨hs.final, ?_, hs.spent⟩⟩
      intro f _ hcancels
      cases hcancels
  | @cancelRequest i watchId h' hloop hh' =>
      have hsync := hc.sync (fun _ h => by cases h) hh'
      have hs := hsync.streams i
      refine ⟨hw', Hub.forall_setStream hsync.streams ⟨hs.final, ?_, hs.spent⟩⟩
      intro f hf hcancels
      cases hcancels
      have hissued := ((hc.wired.streams i).forwarders f hf).id
      exact not_present_of_cancel hc.wired.tracked hc.wired.faults hh' hissued
  | @drop i j f h' hj hh' =>
      have hsync := hc.sync (fun _ h => by cases h) hh'
      refine ⟨hw', Hub.forall_setStream hsync.streams
        ((hsync.streams i).setForwarder hj rfl rfl ?_)⟩
      intro hdrained
      exact Forwarder.isDrained_iff.mpr ⟨(Forwarder.isDrained_iff.mp hdrained).1, rfl⟩
  | @stream i ev s' hmoves =>
      exact ⟨hw', Hub.forall_setStream hc.streams
        ((hc.streams i).moves (hc.wired.streams i) hfinal hmoves)⟩

omit [Crates] in
theorem Hub.cancels_start {sys : System} (hs : sys.store.wal.faults = [])
    (hw : sys.store.watchers = []) : (Hub.start sys).Cancels where
  wired := Hub.wired_start hs hw
  streams := by
    intro i
    refine ⟨?_, ?_, ?_⟩
    · intro before msg after watchId hout
      simp [Hub.start] at hout
    · intro f hf
      cases hf
    · intro watchId hsilenced f hf
      cases hf

/-- **Cancel is final**, in every run where cancellations are announced when the forwarders of the
watch have nothing left: no response carries events of the watch after that, until one says that
it was created again. -/
theorem canceled_is_final {now : Nat} {contents : Bytes} {sys₀ : System}
    (hboot : System.boot now contents = some sys₀) {evs : List HubEvent} {hub : Hub}
    (hrun : (Hub.start sys₀).run evs = some hub)
    (hfinal : Trace.Along Hub.step Hub.StepFinal (.start sys₀) evs) {i : Nat} {watchId : Int64}
    {revision : UInt64} {before between after : List Message} {msg : Message}
    (hout : (hub.streams i).out
      = before ++ .canceled watchId revision :: (between ++ msg :: after))
    (hbetween : ∀ m ∈ between, m.announces watchId = false) :
    msg.carries watchId = false := by
  obtain ⟨s₀, hopen, rfl⟩ := boot_eq_some hboot
  have hstart : (Hub.start ⟨s₀, none⟩).Cancels := by
    obtain ⟨_, _, _, _, _, rfl⟩ := openStore_eq_ok hopen
    exact Hub.cancels_start rfl rfl
  have hc := Trace.invariant (fun _ _ _ hc hev hstep => hc.step hev hstep) hstart hfinal hrun
  -- the invariant is about any split of the stream's output; this one has the cancellation in its
  -- first part
  refine (hc.streams i).final (before ++ .canceled watchId revision :: between) msg after watchId
    ?_ ⟨before, revision, between, rfl, hbetween⟩
  rw [hout, List.append_assoc, List.cons_append]

end

/-- A watch is canceled after its event was forwarded, and a progress request follows. -/
def cancelAfterForward : List HubEvent :=
  undisturbedCreate 0 { key := [1], watchId := 7 } 0 ++ ([
    .handoff (.server (.request (.put { key := [1] }))), .stream 0 (.recv 0),
    .stream 0 (.forward 0), .cancelRequest 0 7, .stream 0 .readRevision, .stream 0 .send,
    .stream 0 .progressRequest, .stream 0 .send] : List HubEvent)

theorem canceled_is_final_after_forward :
    ∃ sys₀ hub before, System.boot 0 [] = some sys₀ ∧
      (Hub.start sys₀).run cancelAfterForward = some hub ∧
      (hub.streams 0).out = before ++ .canceled 7 1 :: ([] ++ [.progress 1]) ∧
      (before.any fun msg => msg.carries 7) = true ∧ (Message.progress 1).carries 7 = false := by
  have hrun : ((System.boot 0 []).any fun sys₀ =>
      decide (Trace.Along Hub.step Hub.StepFinal (.start sys₀) cancelAfterForward) &&
      ((Hub.start sys₀).run cancelAfterForward).any fun hub =>
        (hub.streams 0).out
            = (hub.streams 0).out.take 2 ++ .canceled 7 1 :: ([] ++ [.progress 1]) ∧
          (((hub.streams 0).out.take 2).any fun msg => msg.carries 7) = true) = true := by
    decide +kernel
  obtain ⟨sys₀, hboot, hrun⟩ := (Option.any_eq_true _ _).mp hrun
  obtain ⟨hfinal, hrun⟩ := (Bool.and_eq_true _ _).mp hrun
  obtain ⟨hub, hhub, hrun⟩ := (Option.any_eq_true _ _).mp hrun
  obtain ⟨hout, hcarries⟩ := of_decide_eq_true hrun
  exact ⟨sys₀, hub, _, hboot, hhub, hout, hcarries,
    canceled_is_final hboot hhub (of_decide_eq_true hfinal) hout (by simp)⟩

/-- A put is in the channel of its watcher when the watch is canceled, and is forwarded after the
cancellation was announced. -/
def forwardAfterCancel : List HubEvent :=
  undisturbedCreate 0 { key := [1], watchId := 7 } 0 ++ ([
    .handoff (.server (.request (.put { key := [1] }))), .cancelRequest 0 7,
    .stream 0 .readRevision, .stream 0 .send, .stream 0 (.recv 0),
    .stream 0 (.forward 0)] : List HubEvent)

theorem event_after_canceled :
    ∃ sys₀ hub before msg, System.boot 0 [] = some sys₀ ∧
      (Hub.start sys₀).run forwardAfterCancel = some hub ∧
      (hub.streams 0).out = before ++ .canceled 7 1 :: ([] ++ [msg]) ∧
      msg.carries 7 = true := by
  have hrun : ((System.boot 0 []).any fun sys₀ =>
      ((Hub.start sys₀).run forwardAfterCancel).any fun hub =>
        (hub.streams 0).out.getLast?.any fun msg =>
          (hub.streams 0).out = (hub.streams 0).out.take 1 ++ .canceled 7 1 :: ([] ++ [msg]) ∧
            msg.carries 7 = true) = true := by
    decide +kernel
  obtain ⟨sys₀, hboot, hrun⟩ := (Option.any_eq_true _ _).mp hrun
  obtain ⟨hub, hhub, hrun⟩ := (Option.any_eq_true _ _).mp hrun
  obtain ⟨msg, -, hrun⟩ := (Option.any_eq_true _ _).mp hrun
  obtain ⟨hout, hcarries⟩ := of_decide_eq_true hrun
  exact ⟨sys₀, hub, _, msg, hboot, hhub, hout, hcarries⟩

end Rudurru
