import Rudurru.Server.Progress

/-!
# Rudurru.Server.Transport

From the channels to the client. Several forwarders put what they take from their channels on one
stream, beside a loop that answers requests. As long as the client is there nothing is lost on the
way, nothing comes twice and nothing is made up; each channel keeps its order; and a watcher has
been announced before its first event (`events_on_stream`).

`Stream.Carries` says it for one stream: what stands on it for a watch id is what the forwarders of
that id have delivered of their channels, and a forwarder that has an event in its hand has taken
exactly that one more. It is kept by an event of the stream, since a forwarder moves one event at a
time from its channel to its hand and from its hand to the stream; and by an event of the server,
which only appends to channels (`Server.StreamSound`). When the forwarders have nothing left, what
the client has is all there is.
-/

namespace Rudurru

/-- The event of a watcher that a message carries. -/
def Message.eventFor (watchId : Int64) : Message → Option WatchEvent
  | .event id e => if id = watchId then some e else none
  | _ => none

/-- The events of a watcher among some messages. -/
def eventsFor (watchId : Int64) (out : List Message) : List WatchEvent :=
  out.filterMap (Message.eventFor watchId)

@[simp] theorem eventsFor_append (watchId : Int64) (out out' : List Message) :
    eventsFor watchId (out ++ out') = eventsFor watchId out ++ eventsFor watchId out' :=
  List.filterMap_append

/-- Was the watcher announced? -/
def Announced (watchId : Int64) (out : List Message) : Prop :=
  ∃ resp, .reply resp ∈ out ∧ resp.created = true ∧ resp.watchId = watchId

theorem Announced.append {watchId : Int64} {out : List Message} (h : Announced watchId out)
    (msgs : List Message) : Announced watchId (out ++ msgs) := by
  obtain ⟨resp, hmem, hresp⟩ := h
  exact ⟨resp, List.mem_append_left _ hmem, hresp⟩

/-- Watchers are announced before their events. -/
def AnnouncedFirst (out : List Message) : Prop :=
  ∀ before watchId event after, out = before ++ .event watchId event :: after →
    Announced watchId before

theorem AnnouncedFirst.concat {out : List Message} (h : AnnouncedFirst out) {msg : Message}
    (hmsg : ∀ watchId event, msg = .event watchId event → Announced watchId out) :
    AnnouncedFirst (out ++ [msg]) := by
  intro before watchId event after hsplit
  rcases List.eq_nil_or_concat after with rfl | ⟨after', last, rfl⟩
  · obtain ⟨rfl, hlast⟩ := List.append_inj' hsplit rfl
    exact hmsg watchId event (List.singleton_inj.mp hlast)
  · rw [List.concat_eq_append, ← List.cons_append, ← List.append_assoc] at hsplit
    exact h before watchId event after' (List.append_inj' hsplit rfl).1

/-! ### Forwarders

A forwarder takes one event from its channel, holds it until the stream has room, and puts it there.
What it has delivered is the part of its channel that is on the stream.
-/

/-- The events of its channel that a forwarder has put on the stream. -/
def Forwarder.delivered (channels : Nat → List WatchEvent) (f : Forwarder) : List WatchEvent :=
  (channels f.create).take f.done

/-- What a forwarder has delivered to a watcher. -/
def Forwarder.deliveredTo (channels : Nat → List WatchEvent) (watchId : Int64) (f : Forwarder) :
    List WatchEvent :=
  if f.watchId = watchId then f.delivered channels else []

/-- A forwarder has at most the next event of its channel in its hand. What it has delivered is what
it has taken, but for the event in its hand. -/
structure Forwarder.Keeps (channels : Nat → List WatchEvent) (f : Forwarder) : Prop where
  taken_le : f.taken ≤ (channels f.create).length
  inHand : ∀ watchId event, f.state = .sending (.event watchId event) →
    watchId = f.watchId ∧
      (channels f.create).take f.taken = f.delivered channels ++ [event]

namespace Forwarder.Keeps

variable {channels : Nat → List WatchEvent} {f : Forwarder}

theorem fresh (htaken : f.taken = 0) (hidle : f.state = .idle) : f.Keeps channels where
  taken_le := by rw [htaken]; exact Nat.zero_le _
  inHand := by rw [hidle]; nofun

/-- A forwarder that puts no event down and takes none up. -/
theorem still (hf : f.Keeps channels) (state : ForwarderState)
    (hevent : ∀ watchId event, f.state ≠ .sending (.event watchId event))
    (hstate : ∀ watchId event, state ≠ .sending (.event watchId event)) :
    ({ f with state } : Forwarder).Keeps channels ∧
      ({ f with state } : Forwarder).delivered channels = f.delivered channels := by
  have hnot : ∀ g : Forwarder, (∀ watchId event, g.state ≠ .sending (.event watchId event)) →
      g.isForwarding = false := by
    intro g hg
    unfold isForwarding
    split
    · next watchId event heq => exact absurd heq (hg watchId event)
    · rfl
  refine ⟨⟨hf.taken_le, fun watchId event h => absurd h (hstate watchId event)⟩, ?_⟩
  rw [delivered, delivered, done_eq (hnot f hevent), done_eq (hnot { f with state } hstate)]

/-- It takes the next event. -/
theorem recv (hidle : f.state = .idle) {event : WatchEvent}
    (hevent : (channels f.create)[f.taken]? = some event) :
    ({ f with taken := f.taken + 1, state := .sending (.event f.watchId event) } :
        Forwarder).Keeps channels ∧
      ({ f with taken := f.taken + 1, state := .sending (.event f.watchId event) } :
        Forwarder).delivered channels = f.delivered channels := by
  obtain ⟨hlt, rfl⟩ := List.getElem?_eq_some_iff.mp hevent
  have hdelivered : f.delivered channels = (channels f.create).take f.taken := by
    rw [delivered, done_eq (by rw [isForwarding, hidle])]
  refine ⟨⟨hlt, ?_⟩, hdelivered.symm⟩
  intro watchId event hsending
  cases hsending
  exact ⟨rfl, (List.take_append_getElem hlt).symm⟩

/-- It puts the event down. -/
theorem forward (hf : f.Keeps channels) {watchId : Int64} {event : WatchEvent}
    (hsending : f.state = .sending (.event watchId event)) :
    ({ f with state := .idle } : Forwarder).Keeps channels ∧
      ({ f with state := .idle } : Forwarder).delivered channels
        = f.delivered channels ++ [event] :=
  ⟨⟨hf.taken_le, nofun⟩, (hf.inHand watchId event hsending).2⟩

/-- Its channel grows. -/
theorem grow (hf : f.Keeps channels) {channels' : Nat → List WatchEvent} {sent : List WatchEvent}
    (hsent : channels' f.create = channels f.create ++ sent) :
    f.Keeps channels' ∧ f.delivered channels' = f.delivered channels := by
  have hdelivered : f.delivered channels' = f.delivered channels := by
    rw [delivered, hsent, List.take_append_of_le_length (Nat.le_trans f.done_le hf.taken_le)]
    rfl
  refine ⟨⟨?_, ?_⟩, hdelivered⟩
  · rw [hsent, List.length_append]
    exact Nat.le_add_right_of_le hf.taken_le
  · intro watchId event hsending
    rw [hsent, List.take_append_of_le_length hf.taken_le, hdelivered]
    exact hf.inHand watchId event hsending

end Forwarder.Keeps

/-! ### Streams -/

/-- All that the forwarders of a stream have put on it is there, in the order of each channel, and
behind what announces its watcher. Two forwarders of one stream may have the same watch id, one
after a cancel of the other; so order is stated for each of them, and completeness for the id, up to
the order between them. -/
structure Stream.Carries (channels : Nat → List WatchEvent) (s : Stream) : Prop where
  forwarders : ∀ f ∈ s.forwarders, f.Keeps channels ∧ Announced f.watchId s.out
  spawn : ∀ msg f, s.loop = .sending msg (some f) → f.taken = 0 ∧ f.state = .idle
  nodup : (s.forwarders.map Forwarder.create).Nodup
  attends : ∀ n, s.loop.attends n → n ∉ s.forwarders.map Forwarder.create
  announced : AnnouncedFirst s.out
  ordered : s.closed = false → ∀ f ∈ s.forwarders,
    (f.delivered channels).Sublist (eventsFor f.watchId s.out)
  complete : s.closed = false → ∀ watchId, (eventsFor watchId s.out).Perm
    (s.forwarders.flatMap (Forwarder.deliveredTo channels watchId))

/-- One of some lists grows. -/
theorem flatMap_set_perm {α β : Type} {g : α → List β} {l : List α} {j : Nat} {a a' : α}
    (hj : l[j]? = some a) {more : List β} (hg : g a' = g a ++ more) :
    ((l.set j a').flatMap g).Perm (l.flatMap g ++ more) := by
  obtain ⟨hlt, rfl⟩ := List.getElem?_eq_some_iff.mp hj
  have hsplit : l.flatMap g = (l.take j).flatMap g ++ (g l[j] ++ (l.drop (j + 1)).flatMap g) := by
    rw [← List.flatMap_cons, ← List.drop_eq_getElem_cons hlt, ← List.flatMap_append,
      List.take_append_drop]
  rw [List.set_eq_take_append_cons_drop, if_pos hlt, List.flatMap_append, List.flatMap_cons, hg,
    hsplit, List.append_assoc, List.append_assoc, List.append_assoc]
  exact ((List.perm_append_comm.append_left _)).append_left _

namespace Stream.Carries

variable {channels : Nat → List WatchEvent} {s : Stream}

/-- A forwarder goes on; `more` is what it puts on the stream. -/
theorem setForwarder (hs : s.Carries channels) {j : Nat} {f : Forwarder} (f' : Forwarder)
    (msgs : List Message) (more : List WatchEvent) (hj : s.forwarders[j]? = some f)
    (hcreate : f'.create = f.create) (hid : f'.watchId = f.watchId) (hkeeps : f'.Keeps channels)
    (hdelivered : s.closed = false → f'.delivered channels = f.delivered channels ++ more)
    (hmsgs : ∀ watchId, eventsFor watchId msgs = if f.watchId = watchId then more else [])
    (hfirst : AnnouncedFirst (s.out ++ msgs)) :
    Stream.Carries channels { s.setForwarder j f' with out := s.out ++ msgs } := by
  obtain ⟨hlt, hget⟩ := List.getElem?_eq_some_iff.mp hj
  have hmem : f ∈ s.forwarders := List.mem_of_getElem? hj
  -- the forwarders still attend the same requests
  have hcreates : (s.forwarders.set j f').map Forwarder.create
      = s.forwarders.map Forwarder.create := by
    rw [List.map_set, hcreate, ← hget, ← List.getElem_map Forwarder.create, List.set_getElem_self]
    simpa using hlt
  refine ⟨?_, hs.spawn, ?_, ?_, hfirst, ?_, ?_⟩
  · intro g hg
    rcases List.mem_or_eq_of_mem_set hg with hg | rfl
    · exact ⟨(hs.forwarders g hg).1, (hs.forwarders g hg).2.append msgs⟩
    · rw [hid]
      exact ⟨hkeeps, (hs.forwarders f hmem).2.append msgs⟩
  · exact hcreates ▸ hs.nodup
  · exact hcreates ▸ hs.attends
  · intro hopen g hg
    rw [eventsFor_append]
    rcases List.mem_or_eq_of_mem_set hg with hg | rfl
    · exact (hs.ordered hopen g hg).trans (List.sublist_append_left _ _)
    · rw [hdelivered hopen, hmsgs, hid, if_pos rfl]
      exact (hs.ordered hopen f hmem).append (List.Sublist.refl _)
  · intro hopen watchId
    rw [eventsFor_append, hmsgs]
    -- only the events for the ID of this forwarder grow, on both sides by the same
    have hgrows : Forwarder.deliveredTo channels watchId f'
        = Forwarder.deliveredTo channels watchId f
          ++ if f.watchId = watchId then more else [] := by
      rw [Forwarder.deliveredTo, Forwarder.deliveredTo, hid, hdelivered hopen]
      split
      · rfl
      · rfl
    exact ((hs.complete hopen watchId).append_right _).trans (flatMap_set_perm hj hgrows).symm

/-- A forwarder goes on and puts nothing on the stream. -/
theorem setForwarder_quiet (hs : s.Carries channels) {j : Nat} {f f' : Forwarder}
    (hj : s.forwarders[j]? = some f) (hcreate : f'.create = f.create) (hid : f'.watchId = f.watchId)
    (hkeeps : f'.Keeps channels)
    (hdelivered : s.closed = false → f'.delivered channels = f.delivered channels) :
    (s.setForwarder j f').Carries channels := by
  have hset := hs.setForwarder f' [] [] hj hcreate hid hkeeps
    (fun hopen => by rw [hdelivered hopen, List.append_nil])
    (fun watchId => by split <;> rfl) (by rw [List.append_nil]; exact hs.announced)
  rw [List.append_nil] at hset
  exact hset

/-- The loop goes on. -/
theorem setLoop (hs : s.Carries channels) {loop : LoopState}
    (hspawn : ∀ msg f, loop = .sending msg (some f) → f.taken = 0 ∧ f.state = .idle)
    (hattends : ∀ n, loop.attends n → n ∉ s.forwarders.map Forwarder.create) :
    Stream.Carries channels { s with loop } :=
  { hs with spawn := hspawn, attends := hattends }

end Stream.Carries

theorem eventsFor_eq_nil {msg : Message} (h : msg.forwardedFor = none) (watchId : Int64) :
    eventsFor watchId [msg] = [] := by
  cases msg with
  | event id e | tick id revision => cases h
  | reply _ | canceled _ _ | progress _ => rfl

section

variable [Crates]

omit [Crates] in
/-- A forwarder ends by itself when it has nothing in its hand. -/
theorem idle_of_recvNone {h : Handoff} {channels : Nat → List WatchEvent} {s s' : Stream} {j : Nat}
    (hstep : s.step h channels (.recvNone j) = some s') :
    ∃ f, s.forwarders[j]? = some f ∧ f.state = .idle ∧
      s' = s.setForwarder j { f with state := .ended } := by
  obtain ⟨f, hf, hstep⟩ := Option.bind_eq_some_iff.mp hstep
  split at hstep
  · next hguard =>
      cases hstep
      exact ⟨f, hf, hguard.1, rfl⟩
  · cases hstep

omit [Crates] in
/-- **One event on a stream.** A message goes from a hand to the stream, and the hand is empty; or
an event goes from a channel into a hand, and nothing has been delivered yet. -/
theorem Stream.Carries.step {h : Handoff} {channels : Nat → List WatchEvent} {s s' : Stream}
    {ev : StreamEvent} (hs : s.Carries channels) (hw : s.Wired h)
    (hstep : s.step h channels ev = some s') : s'.Carries channels := by
  cases Stream.moves_of_step hstep with
  | progressRequest hloop | readRevision hloop | endRequests hloop =>
      refine hs.setLoop ?_ ?_
      · intro msg f hsending
        cases hsending
      · intro n hattends
        cases hattends
  | sendFails hloop =>
      refine hs.setLoop ?_ ?_
      · intro msg f hsending
        cases hsending
      · intro n hattends
        cases hattends
  | @replied n watchId progressNotify resp hloop hresp =>
      have hwaits := hs.attends n (by rw [hloop]; rfl)
      refine hs.setLoop ?_ ?_
      · intro msg f hsending
        split at hsending
        · cases hsending
          exact ⟨rfl, rfl⟩
        · cases hsending
      · intro m hattends
        split at hattends
        · obtain rfl : n = m := hattends
          exact hwaits
        · cases hattends
  | @send msg spawn hloop hopen =>
      have hwired := hw.loop
      rw [hloop] at hwired
      -- the loop itself sends no event: those come from the forwarders
      have hquiet := eventsFor_eq_nil hwired.forwardedFor_eq_none
      have hspawned : ∀ f ∈ spawn.toList, f.taken = 0 ∧ f.state = .idle ∧
          Announced f.watchId (s.out ++ [msg]) ∧ f.create ∉ s.forwarders.map Forwarder.create := by
        intro f hf
        rw [Option.mem_toList.mp hf] at hloop hwired
        obtain ⟨htaken, hidle⟩ := hs.spawn msg f hloop
        obtain ⟨-, resp, rfl, hcreated, hid⟩ := hwired
        exact ⟨htaken, hidle, ⟨resp, List.mem_append_right _ List.mem_cons_self, hcreated, hid⟩,
          hs.attends f.create (by rw [hloop]; rfl)⟩
      -- a forwarder that starts has delivered nothing yet
      have hnone : ∀ f ∈ spawn.toList, f.delivered channels = [] := by
        intro f hf
        have hdone : f.done = 0 := Nat.le_zero.mp ((hspawned f hf).1 ▸ f.done_le)
        rw [Forwarder.delivered, hdone, List.take_zero]
      refine ⟨?_, ?_, ?_, ?_, ?_, ?_, ?_⟩
      · intro f hf
        rcases List.mem_append.mp hf with hf | hf
        · exact ⟨(hs.forwarders f hf).1, (hs.forwarders f hf).2.append _⟩
        · obtain ⟨htaken, hidle, hannounced, -⟩ := hspawned f hf
          exact ⟨.fresh htaken hidle, hannounced⟩
      · intro msg f hsending
        cases hsending
      · rw [List.map_append, List.nodup_append]
        refine ⟨hs.nodup, ?_, ?_⟩
        · cases spawn with
          | none => exact List.nodup_nil
          | some f => exact List.nodup_singleton _
        · intro n hn m hm heq
          obtain ⟨f, hf, rfl⟩ := List.mem_map.mp hm
          exact (hspawned f hf).2.2.2 (heq ▸ hn)
      · intro n hattends
        cases hattends
      · refine hs.announced.concat ?_
        intro watchId event hmsg
        have hnot := hwired.forwardedFor_eq_none
        rw [hmsg] at hnot
        cases hnot
      · intro _ f hf
        rw [eventsFor_append, hquiet, List.append_nil]
        rcases List.mem_append.mp hf with hf | hf
        · exact hs.ordered hopen f hf
        · rw [hnone f hf]
          exact List.nil_sublist _
      · intro _ watchId
        have hmore : spawn.toList.flatMap (Forwarder.deliveredTo channels watchId) = [] := by
          refine List.flatMap_eq_nil_iff.mpr fun f hf => ?_
          rw [Forwarder.deliveredTo, hnone f hf, ite_self]
        rw [eventsFor_append, hquiet, List.append_nil, List.flatMap_append, hmore, List.append_nil]
        exact hs.complete hopen watchId
  | @recv j f event hj hidle hevent =>
      obtain ⟨hkeeps, hdelivered⟩ := Forwarder.Keeps.recv hidle hevent
      exact hs.setForwarder_quiet hj rfl rfl hkeeps fun _ => hdelivered
  | recvNone =>
      obtain ⟨f, hj, hidle, hended⟩ := idle_of_recvNone hstep
      rw [hended]
      obtain ⟨hkeeps, hdelivered⟩ := (hs.forwarders f (List.mem_of_getElem? hj)).1.still .ended
        (by rw [hidle]; nofun) nofun
      exact hs.setForwarder_quiet hj rfl rfl hkeeps fun _ => hdelivered
  | @tick j f hj hidle =>
      obtain ⟨hkeeps, hdelivered⟩ := (hs.forwarders f (List.mem_of_getElem? hj)).1.still .ticked
        (by rw [hidle]; nofun) nofun
      exact hs.setForwarder_quiet hj rfl rfl hkeeps fun _ => hdelivered
  | tickIgnored => exact hs
  | @readTick j f hj hticked =>
      obtain ⟨hkeeps, hdelivered⟩ := (hs.forwarders f (List.mem_of_getElem? hj)).1.still
        (.sending (.tick f.watchId h.sys.store.currentRevision)) (by rw [hticked]; nofun) nofun
      exact hs.setForwarder_quiet hj rfl rfl hkeeps fun _ => hdelivered
  | @forward j f msg hj hsending =>
      have hmem := List.mem_of_getElem? hj
      obtain ⟨hkeeps, hannounced⟩ := hs.forwarders f hmem
      have hid := (hw.forwarders f hmem).sending msg hsending
      cases msg with
      | event watchId event =>
          -- the event leaves the forwarder and enters the stream in the same step
          obtain ⟨hkeeps', hdelivered⟩ := hkeeps.forward hsending
          obtain rfl : watchId = f.watchId := Option.some.inj hid
          refine hs.setForwarder { f with state := .idle } [.event f.watchId event] [event] hj rfl
            rfl hkeeps' (fun _ => hdelivered) ?_ ?_
          · intro watchId
            by_cases heq : f.watchId = watchId <;> simp [eventsFor, Message.eventFor, heq]
          · refine hs.announced.concat ?_
            intro watchId event hmsg
            cases hmsg
            exact hannounced
      | tick watchId revision =>
          obtain ⟨hkeeps', hdelivered⟩ := hkeeps.still .idle (by rw [hsending]; nofun) nofun
          refine hs.setForwarder { f with state := .idle } [.tick watchId revision] [] hj rfl rfl
            hkeeps' ?_ ?_ (hs.announced.concat nofun)
          · intro _
            rw [hdelivered, List.append_nil]
          · intro id
            split <;> rfl
      | reply _ | canceled _ _ | progress _ => cases hid
  | receive => exact { hs with }
  | disconnect => exact { hs with ordered := nofun, complete := nofun }

omit [Crates] in
/-- Channels grow. -/
theorem Stream.Carries.grow {channels channels' : Nat → List WatchEvent} {s : Stream}
    (hs : s.Carries channels)
    (hgrow : ∀ f ∈ s.forwarders, ∃ sent, channels' f.create = channels f.create ++ sent) :
    s.Carries channels' := by
  have hsame : ∀ f ∈ s.forwarders, f.Keeps channels' ∧
      f.delivered channels' = f.delivered channels := by
    intro f hf
    obtain ⟨sent, hsent⟩ := hgrow f hf
    exact (hs.forwarders f hf).1.grow hsent
  refine
    { hs with
      forwarders := fun f hf => ⟨(hsame f hf).1, (hs.forwarders f hf).2⟩
      ordered := ?_
      complete := ?_ }
  · intro hopen f hf
    rw [(hsame f hf).2]
    exact hs.ordered hopen f hf
  · intro hopen watchId
    have heq : s.forwarders.flatMap (Forwarder.deliveredTo channels' watchId)
        = s.forwarders.flatMap (Forwarder.deliveredTo channels watchId) := by
      refine List.flatMap_congr fun f hf => ?_
      rw [Forwarder.deliveredTo, Forwarder.deliveredTo, (hsame f hf).2]
    rw [heq]
    exact hs.complete hopen watchId

/-! ### The server -/

/-- Every stream carries what its forwarders took. -/
structure Hub.Carries (hub : Hub) : Prop where
  wired : hub.Wired
  streams : ∀ i, (hub.streams i).Carries hub.channels

omit [Crates] in
theorem Hub.carries_start {sys : System} (hs : sys.store.wal.faults = [])
    (hw : sys.store.watchers = []) : (Hub.start sys).Carries where
  wired := Hub.wired_start hs hw
  streams := by
    intro i
    refine ⟨nofun, nofun, List.nodup_nil, nofun, ?_, nofun, fun _ _ => .refl _⟩
    intro before watchId event after hsplit
    cases before <;> cases hsplit

/-- The server moves. -/
theorem Hub.Carries.sync {hub : Hub} (hc : hub.Carries) {ev : HandoffEvent} {h' : Handoff}
    (hev : ∀ now, ev ≠ .server (.restart now)) (hstep : hub.handoff.step ev = some h') (i : Nat) :
    (hub.streams i).Carries (hub.sync h').channels := by
  obtain ⟨hsync, hext⟩ := hc.wired.sync hev hstep
  refine (hc.streams i).grow fun f hf => ?_
  obtain ⟨sent, hsent, -, -⟩ := channels_extends hsync.tracked hc.wired.channels hext
    (((hc.wired.streams i).forwarders f hf).not_coming hc.wired.tracked)
  exact ⟨sent, hsent⟩

/-- A forwarder gives up on its client only when it is gone. -/
theorem Hub.closed_of_drop {hub hub' : Hub} {i j : Nat}
    (hstep : hub.step (.drop i j) = some hub') : (hub.streams i).closed = true := by
  obtain ⟨f, -, hstep⟩ := Option.bind_eq_some_iff.mp hstep
  split at hstep
  · split at hstep
    · next hclosed => exact hclosed
    · cases hstep
  · cases hstep

/-- **One event of the server.** Beside the streams channels only grow, at their ends. -/
theorem Hub.Carries.step {hub hub' : Hub} {ev : HubEvent} (hc : hub.Carries)
    (hstep : hub.step ev = some hub') : hub'.Carries := by
  have hw' := hc.wired.step hstep
  cases Hub.moves_of_step hstep with
  | handoff hev hh' => exact ⟨hw', hc.sync (besideStreams_ne_restart hev) hh'⟩
  | @createRequest i req hloop =>
      have hcreate : hub.handoff.step (.create req) = some (hub.handoff.create req) := rfl
      have hsync := hc.sync (fun _ h => by cases h) hcreate
      refine ⟨hw', Hub.forall_setStream hsync { hsync i with spawn := nofun, attends := ?_ }⟩
      intro n hattends hspawned
      obtain rfl : hub.handoff.issued.length = n := hattends
      obtain ⟨f, hf, hcreate⟩ := List.mem_map.mp hspawned
      have hlt := (hc.wired.streams i).creates_lt _ ((hc.wired.streams i).forwarders f hf).mem
      exact Nat.lt_irrefl _ (hcreate ▸ hlt)
  | @cancelRequest i watchId h' hloop hh' =>
      have hsync := hc.sync (fun _ h => by cases h) hh'
      exact ⟨hw', Hub.forall_setStream hsync { hsync i with spawn := nofun, attends := nofun }⟩
  | @drop i j f h' hj hh' =>
      have hsync := hc.sync (fun _ h => by cases h) hh'
      have hclosed := Hub.closed_of_drop hstep
      have hkeeps := ((hsync i).forwarders f (List.mem_of_getElem? hj)).1
      refine ⟨hw', Hub.forall_setStream hsync ((hsync i).setForwarder_quiet hj rfl rfl
        ⟨hkeeps.taken_le, nofun⟩ ?_)⟩
      intro hopen
      rw [hclosed] at hopen
      cases hopen
  | @stream i ev s' =>
      obtain ⟨s'', hs'', hset⟩ := Option.map_eq_some_iff.mp hstep
      have hstream := (hc.streams i).step (hc.wired.streams i) hs''
      refine ⟨hw', ?_⟩
      rw [← hset]
      exact Hub.forall_setStream hc.streams hstream

omit [Crates] in
/-- Where one forwarder sends under an id, the events of the id are what it delivered. -/
theorem Stream.Carries.eventsFor_eq {channels : Nat → List WatchEvent} {s : Stream}
    (hs : s.Carries channels) (hopen : s.closed = false) {f : Forwarder} (hf : f ∈ s.forwarders)
    (hunique : ∀ g ∈ s.forwarders, g.watchId = f.watchId → g.create = f.create) :
    eventsFor f.watchId s.out = f.delivered channels := by
  have hnodup := hs.nodup
  have hcomplete := hs.complete hopen f.watchId
  have hother : ∀ g ∈ s.forwarders, g ≠ f →
      Forwarder.deliveredTo channels f.watchId g = [] := by
    intro g hg hne
    refine if_neg fun hid => hne ?_
    exact List.inj_on_of_nodup_map hnodup hg hf (hunique g hg hid)
  obtain ⟨l, l', hsplit⟩ := List.append_of_mem hf
  have hflat : s.forwarders.flatMap (Forwarder.deliveredTo channels f.watchId)
      = f.delivered channels := by
    have hnodup' : (l ++ f :: l').Nodup := hsplit ▸ (List.Nodup.of_map _ hnodup)
    obtain ⟨-, hnodup', hdisjoint⟩ := List.nodup_append.mp hnodup'
    rw [hsplit, List.flatMap_append, List.flatMap_cons, List.flatMap_eq_nil_iff.mpr,
      List.flatMap_eq_nil_iff.mpr, List.nil_append, List.append_nil, Forwarder.deliveredTo,
      if_pos rfl]
    · intro g hg
      refine hother g (hsplit ▸ by simp [hg]) ?_
      rintro rfl
      exact (List.nodup_cons.mp hnodup').1 hg
    · intro g hg
      refine hother g (hsplit ▸ by simp [hg]) ?_
      rintro rfl
      exact hdisjoint g hg g List.mem_cons_self rfl
  rw [hflat] at hcomplete
  exact ((hs.ordered hopen f hf).eq_of_length hcomplete.length_eq.symm).symm

/-- **What a client gets of its watchers**, in every run of one process. No event comes before the
response that announces its watcher. As long as the client is there, the events on its stream under
an id are those that the forwarders of the id took from their channels and have not in their hands,
all of them and no others, each channel in its order; and the channel of a registered watcher is
what its watcher was sent. -/
theorem events_on_stream {now : Nat} {contents : Bytes} {sys₀ : System}
    (hboot : System.boot now contents = some sys₀) {evs : List HubEvent} {hub : Hub}
    (hrun : (Hub.start sys₀).run evs = some hub) (i : Nat) :
    AnnouncedFirst (hub.streams i).out ∧
      ((hub.streams i).closed = false →
        (∀ f ∈ (hub.streams i).forwarders,
          (f.delivered hub.channels).Sublist (eventsFor f.watchId (hub.streams i).out)) ∧
        ∀ watchId, (eventsFor watchId (hub.streams i).out).Perm
          ((hub.streams i).forwarders.flatMap (Forwarder.deliveredTo hub.channels watchId))) ∧
      ∀ p ∈ hub.watchersOf i, hub.channels p.2.create = p.1.sender := by
  obtain ⟨s₀, hopen, rfl⟩ := boot_eq_some hboot
  have hstart : (Hub.start ⟨s₀, none⟩).Carries := by
    obtain ⟨_, _, _, _, _, rfl⟩ := openStore_eq_ok hopen
    exact Hub.carries_start rfl rfl
  have hc := Trace.invariant_of_step (fun _ _ _ hc hstep => hc.step hstep) hstart hrun
  -- the order and completeness are about open streams: a client that left is sent nothing more
  refine ⟨(hc.streams i).announced, fun hopen => ?_, ?_⟩
  · exact ⟨(hc.streams i).ordered hopen, (hc.streams i).complete hopen⟩
  · exact fun p hp => hc.wired.channels p (List.mem_filter.mp hp).1

end

/-- Two watchers of one stream, of which the second has an event in its hand. -/
def twoWatchers : List HubEvent :=
  undisturbedCreate 0 { key := [1], watchId := 7 } 0
    ++ undisturbedCreate 0 { key := [1], watchId := 8 } 0 ++ ([
    .handoff (.server (.request (.put { key := [1] }))), .stream 0 (.recv 1),
    .stream 0 (.recv 0), .stream 0 (.forward 0)] : List HubEvent)

theorem events_on_stream_two_watchers :
    ∃ sys₀ hub, System.boot 0 [] = some sys₀ ∧ (Hub.start sys₀).run twoWatchers = some hub ∧
      (eventsFor 7 (hub.streams 0).out).map WatchEvent.revision = [1] ∧
      (eventsFor 8 (hub.streams 0).out) = [] ∧ (hub.watchersOf 0).length = 2 ∧
      ∀ f ∈ (hub.streams 0).forwarders,
        (f.delivered hub.channels).Sublist (eventsFor f.watchId (hub.streams 0).out) := by
  have hrun : ((System.boot 0 []).any fun sys₀ => ((Hub.start sys₀).run twoWatchers).any fun hub =>
      (hub.streams 0).closed = false ∧
        (eventsFor 7 (hub.streams 0).out).map WatchEvent.revision = [1] ∧
          eventsFor 8 (hub.streams 0).out = [] ∧ (hub.watchersOf 0).length = 2) = true := by
    decide +kernel
  obtain ⟨sys₀, hboot, hrun⟩ := (Option.any_eq_true _ _).mp hrun
  obtain ⟨hub, hhub, hrun⟩ := (Option.any_eq_true _ _).mp hrun
  obtain ⟨hopen, hseven, height, hlength⟩ := of_decide_eq_true hrun
  exact ⟨sys₀, hub, hboot, hhub, hseven, height, hlength,
    ((events_on_stream hboot hhub 0).2.1 hopen).1⟩

end Rudurru
