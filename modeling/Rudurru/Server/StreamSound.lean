import Rudurru.Server.Answers
import Rudurru.Server.Stream

/-!
# Rudurru.Server.StreamSound

How streams, watchers and channels hang together, in every state of the server (`Hub.Wired`): a
forwarder belongs to a create that was answered, a registered watcher has its forwarder or a loop
that is about to start it, and what stands in a channel is what its watcher was sent.

What an event does to the watchers is said once (`Handoff.Extends`): the registered ones are sent
events of the next revision or taken away, and new ones come from creates that were under way.

The proofs go event by event. `Handoff.moves_of_step`, `Stream.Moves` and `Hub.Moves` invert the
three step functions once, so that a proof about an event starts from what the event can do and not
from the branches of the code. A stream then keeps its wiring while it moves (`Stream.Wired.moves`),
and keeps it while the server moves beside it, because the server only extends what the stream knows
of (`Stream.Wired.extends`). `Hub.Wired.step` puts the two together: an event moves one stream, or
the server, or both, and every other stream stands where it was.

A run here is one process. A restart ends all streams, so nothing has to be carried across it.
-/

namespace Rudurru

/-! ### What an event does to the watchers

Creates are numbered in the order in which they are read. A create is `coming` from then until phase
2 registers it or it is turned away, and `present` while its watcher is registered.
-/

/-- The numbers of the creates whose watchers are registered. -/
def Handoff.present (h : Handoff) : List Nat := h.registered.map (·.1)

/-- The numbers of the creates that are not registered yet. -/
def Handoff.coming (h : Handoff) : List Nat := h.waiting.map (·.1)

/-- Creates get their numbers in turn and are answered; watchers come from creates under way, and
are sent events of the next revision. Nothing is said of watchers that are gone: they may have been
canceled. A new watcher may have been sent anything. -/
structure Handoff.Extends (h h' : Handoff) : Prop where
  issued : h.issued <+: h'.issued
  replies : h.replies <+: h'.replies
  coming : ∀ n ∈ h'.coming, n ∈ h.coming ∨ n = h.issued.length
  watched : ∀ p' ∈ h'.watched, p'.2.create ∈ h.coming ∨
    ∃ p ∈ h.watched, p'.2 = p.2 ∧ p'.1.watchId = p.1.watchId ∧
      ∃ sent, p'.1.sender = p.1.sender ++ sent ∧
        ∀ event ∈ sent, event.revision = h.sys.store.nextRev

theorem mem_present {h : Handoff} {n : Nat} :
    n ∈ h.present ↔ ∃ p ∈ h.watched, p.2.create = n := by
  simp [Handoff.present, Handoff.registered]

theorem Handoff.isRegistered_iff {h : Handoff} {n : Nat} :
    h.isRegistered n = true ↔ n ∈ h.present := by
  simp only [Handoff.isRegistered, List.any_eq_true, decide_eq_true_eq, mem_present]

/-- Nothing is registered for a create that is neither registered nor under way. -/
theorem Handoff.Extends.present {h h' : Handoff} (hext : h.Extends h') {n : Nat}
    (hn : n ∈ h'.present) : n ∈ h.present ∨ n ∈ h.coming := by
  obtain ⟨p', hp', rfl⟩ := mem_present.mp hn
  rcases hext.watched p' hp' with hcoming | ⟨p, hp, hsame, -⟩
  · exact .inr hcoming
  · exact .inl (mem_present.mpr ⟨p, hp, by rw [hsame]⟩)

/-- A step that leaves the creates and the watchers alone. -/
theorem Handoff.Extends.of_same {h h' : Handoff} (hissued : h'.issued = h.issued)
    (hreplies : h.replies <+: h'.replies) (hcoming : ∀ n ∈ h'.coming, n ∈ h.coming)
    (hwatched : ∀ p ∈ h'.watched, p ∈ h.watched) : h.Extends h' where
  issued := by rw [hissued]
  replies := hreplies
  coming := fun n hn => .inl (hcoming n hn)
  watched := fun p hp => .inr ⟨p, hwatched p hp, rfl, rfl, [], by simp, by simp⟩

/-- A step of the flush that brings in no creates. -/
theorem coming_subset {h h' : Handoff} {f : FlushRun} (hf : h.flush = some f)
    (hqueue : h'.queue = h.queue)
    (hsub : ∀ f' ∈ h'.flush, ∀ e ∈ f'.stage.waiting, e ∈ f.stage.waiting) :
    ∀ n ∈ h'.coming, n ∈ h.coming := by
  intro n hn
  obtain ⟨e, he, rfl⟩ := List.mem_map.mp hn
  refine List.mem_map_of_mem ?_
  rw [Handoff.waiting, hqueue] at he
  rw [waiting_of_flush hf]
  rcases List.mem_append.mp he with he | he
  · cases hflush : h'.flush with
    | none =>
        rw [hflush] at he
        cases he
    | some f' =>
        rw [hflush] at he
        exact List.mem_append_left _ (hsub f' hflush e he)
  · exact List.mem_append_right _ he

section

variable [Crates]

/-- Phase 2 registers watchers whose creates were under way, behind those that are there. -/
theorem watched_register {h : Handoff} (ht : Tracked h) {f : FlushRun} {st : ReplayState}
    (hf : h.flush = some f) (hstage : f.stage = .catchingUp st) {active : List WatchContext}
    (hentries : active.map WatchContext.entry = st.active.map WatchContext.entry) :
    (active.foldl (fun s ctx => s.registerWatcher ctx.registration) h.sys.store).watchers.zip
        (h.origins ++ active.map (f.origin h.sys.store.wal))
      = h.watched ++ active.map (fun ctx => (ctx.registration, f.origin h.sys.store.wal ctx)) ∧
    ∀ ctx ∈ active, ctx.reply ∈ h.coming := by
  refine ⟨?_, ?_⟩
  · rw [watchers_registerAll, List.zip_append ht.length, List.zip_map']
    rfl
  · intro ctx hctx
    refine List.mem_map.mpr ⟨ctx.entry, ?_, rfl⟩
    rw [waiting_of_flush hf, hstage]
    refine List.mem_append_left _ ?_
    show ctx.entry ∈ st.active.map WatchContext.entry
    rw [← hentries]
    exact List.mem_map_of_mem hctx

/-- Within one process, every event extends what was. -/
theorem Handoff.extends_of_step {h h' : Handoff} {ev : HandoffEvent} (ht : Tracked h)
    (hs : h.sys.store.wal.faults = []) (hev : ∀ now, ev ≠ .server (.restart now))
    (hstep : h.step ev = some h') : h.Extends h' := by
  cases Handoff.moves_of_step hs hstep with
  | @request q ws s' hq hpub =>
      refine ⟨List.prefix_rfl, List.prefix_rfl, fun n hn => .inl hn, ?_⟩
      intro p' hp'
      rw [Handoff.watched, hpub.watchers, List.zip_map_left] at hp'
      obtain ⟨p, hp, rfl⟩ := List.mem_map.mp hp'
      -- a write only adds events to the channels
      obtain ⟨sent, hsent, hrev⟩ := notifyWrites_eq hpub.rev_eq p.1
      refine .inr ⟨p, hp, rfl, ?_, sent, ?_, hrev⟩
      · show (notifyWrites ws p.1).watchId = p.1.watchId
        rw [hsent]
      · show (notifyWrites ws p.1).sender = p.1.sender ++ sent
        rw [hsent]
  | @cancelWatch watchId =>
      refine .of_same rfl List.prefix_rfl (fun n hn => hn) ?_
      intro p hp
      rw [Handoff.watched, watched_cancel ht.length] at hp
      exact (List.mem_filter.mp hp).1
  | compactA | compactB | compactFails =>
      exact .of_same rfl List.prefix_rfl (fun n hn => hn) (fun p hp => hp)
  | compactC =>
      refine .of_same rfl List.prefix_rfl ?_ (fun p hp => hp)
      cases hf : h.flush with
      | none =>
          rw [Option.map_none, ← hf]
          exact fun n hn => hn
      | some f =>
          refine coming_subset hf rfl ?_
          intro f' hf' e he
          cases hf'
          rw [(waiting_swap f _).1] at he
          exact he
  | restart => exact absurd rfl (hev _)
  | create =>
      refine ⟨List.prefix_append _ _, List.prefix_rfl, ?_, fun p hp =>
        .inr ⟨p, hp, rfl, rfl, [], by simp, by simp⟩⟩
      intro n hn
      obtain ⟨e, he, rfl⟩ := List.mem_map.mp hn
      -- the new request is the only one to come that was not coming before
      rw [Handoff.waiting, Handoff.create, List.map_append, ← List.append_assoc] at he
      rcases List.mem_append.mp he with he | he
      · exact .inl (List.mem_map_of_mem he)
      · rw [List.map_singleton, List.mem_singleton] at he
        rw [he]
        exact .inr rfl
  | @checkpoint n hnone =>
      refine .of_same rfl List.prefix_rfl ?_ (fun p hp => hp)
      intro m hm
      obtain ⟨e, he, rfl⟩ := List.mem_map.mp hm
      refine List.mem_map_of_mem ?_
      rw [Handoff.waiting, hnone]
      -- the batch and what stays in the queue are the queue as it was
      have hsplit :
          (h.queue.take n).map GlobalCreate.entry ++ (h.queue.drop n).map GlobalCreate.entry
          = h.queue.map GlobalCreate.entry := by
        rw [← List.map_append, List.take_append_drop]
      exact hsplit ▸ he
  | compactRev hf hstage | openWal hf hstage =>
      refine .of_same rfl List.prefix_rfl (coming_subset hf rfl ?_) (fun p hp => hp)
      intro f' hf' e he
      cases hf'
      rw [hstage]
      exact he
  | refuse hf hstage hresp =>
      refine .of_same rfl (List.prefix_append _ _) (coming_subset hf rfl ?_) (fun p hp => hp)
      intro f' hf' e he
      cases hf'
      rw [hstage]
      rcases List.mem_append.mp he with he | he
      · exact List.mem_append_left _ he
      · exact List.mem_append_right _ (List.mem_cons_of_mem _ he)
  | admission hf hstage hctx =>
      refine .of_same rfl List.prefix_rfl (coming_subset hf rfl ?_) (fun p hp => hp)
      intro f' hf' e he
      cases hf'
      rw [hstage]
      rcases List.mem_append.mp he with he | he
      · rw [List.map_append, List.mem_append, List.map_singleton, List.mem_singleton,
          entry_of_admitCreate hctx] at he
        rcases he with he | rfl
        · exact List.mem_append_left _ he
        · exact List.mem_append_right _ List.mem_cons_self
      · exact List.mem_append_right _ (List.mem_cons_of_mem _ he)
  | screen hf hstage =>
      refine .of_same rfl (List.prefix_append _ _) (coming_subset hf rfl ?_) (fun p hp => hp)
      intro f' hf' e he
      dsimp only at hf'
      split at hf'
      · cases hf'
      · cases hf'
        obtain ⟨ctx, hctx, rfl⟩ := List.mem_map.mp he
        rw [hstage]
        refine List.mem_append_left _ ?_
        exact List.mem_map_of_mem (mem_of_mem_screenDuplicates hctx)
  | phase1 hf hstage =>
      refine .of_same rfl List.prefix_rfl (coming_subset hf rfl ?_) (fun p hp => hp)
      intro f' hf' e he
      cases hf'
      have hentries : e ∈ (flushPhase1 _ _ _).active.map WatchContext.entry := he
      rw [entry_flushPhase1] at hentries
      rw [hstage]
      exact hentries
  | @phase2 f st hf hstage =>
      have hentries := entry_flushPhase2 h.sys.store.wal.contents f.checkpointRev
        f.checkpointOffset st
      generalize (flushPhase2 h.sys.store.wal.contents f.checkpointRev f.checkpointOffset
        st).active = active at hentries ⊢
      refine ⟨List.prefix_rfl, List.prefix_rfl, ?_, ?_⟩
      · intro n hn
        obtain ⟨e, he, rfl⟩ := List.mem_map.mp hn
        refine .inl (List.mem_map_of_mem ?_)
        rw [waiting_of_flush hf]
        exact List.mem_append_right _ he
      · intro p hp
        -- what phase 2 registers was coming until now
        obtain ⟨hwatched, hcoming⟩ := watched_register ht hf hstage hentries
        rw [Handoff.watched] at hp
        dsimp only at hp
        rw [hwatched, List.mem_append] at hp
        rcases hp with hp | hp
        · exact .inr ⟨p, hp, rfl, rfl, [], by simp, by simp⟩
        · obtain ⟨ctx, hctx, rfl⟩ := List.mem_map.mp hp
          exact .inl (hcoming ctx hctx)
  | reply hf hstage =>
      refine .of_same rfl (List.prefix_append _ _) (coming_subset hf rfl ?_) (fun p hp => hp)
      intro f' hf' e he
      dsimp only at hf'
      split at hf'
      · cases hf'
      · cases hf'
        cases he

/-! ### Channels

The channels of the model are what the watchers in the store were sent, copied at every step by
`Hub.sync`. A channel whose watcher is gone stays as it was: its forwarder may still be reading it.
-/

omit [Crates] in
/-- A registered watcher is found by its create. -/
theorem find?_watched {h : Handoff} (ht : Tracked h) {p : WatchRegistration × Origin}
    (hp : p ∈ h.watched) : h.watched.find? (·.2.create = p.2.create) = some p := by
  have hnodup : (h.watched.map (·.2.create)).Nodup := by
    have hcreates := ht.nodup
    rw [Handoff.registered, List.map_map] at hcreates
    exact hcreates
  generalize h.watched = l at hp hnodup
  induction l with
  | nil => cases hp
  | cons q l ih =>
      obtain ⟨hq, hnodup⟩ := List.nodup_cons.mp hnodup
      rcases List.mem_cons.mp hp with rfl | hp
      · exact List.find?_cons_of_pos (by simp)
      · have hne : q.2.create ≠ p.2.create := by
          intro heq
          exact hq (List.mem_map.mpr ⟨p, hp, heq.symm⟩)
        rw [List.find?_cons_of_neg (by simpa using hne)]
        exact ih hp hnodup

omit [Crates] in
theorem find?_watched_eq_none {h : Handoff} {n : Nat} (hn : n ∉ h.present) :
    h.watched.find? (·.2.create = n) = none := by
  refine List.find?_eq_none.mpr ?_
  intro p hp heq
  exact hn (mem_present.mpr ⟨p, hp, of_decide_eq_true heq⟩)

omit [Crates] in
/-- The channel of a registered watcher holds what it was sent. -/
theorem channels_sync {hub : Hub} {h : Handoff} (ht : Tracked h) :
    ∀ p ∈ h.watched, (hub.sync h).channels p.2.create = p.1.sender := by
  intro p hp
  show ((h.watched.find? (·.2.create = p.2.create)).map (·.1.sender)).getD _ = _
  rw [find?_watched ht hp]
  rfl

omit [Crates] in
/-- A channel whose create is not under way grows by events of the next revision, and one without a
watcher does not grow. -/
theorem channels_extends {hub : Hub} {h' : Handoff} (ht' : Tracked h')
    (hchannels : ∀ p ∈ hub.handoff.watched, hub.channels p.2.create = p.1.sender)
    (hext : hub.handoff.Extends h') {n : Nat} (hn : n ∉ hub.handoff.coming) :
    ∃ sent, (hub.sync h').channels n = hub.channels n ++ sent ∧
      (∀ event ∈ sent, event.revision = hub.handoff.sys.store.nextRev) ∧
      (n ∉ hub.handoff.present → sent = []) := by
  by_cases hpresent : n ∈ h'.present
  · obtain ⟨p', hp', rfl⟩ := mem_present.mp hpresent
    rcases hext.watched p' hp' with hcoming | ⟨p, hp, hsame, -, sent, hsent, hrev⟩
    · exact absurd hcoming hn
    · refine ⟨sent, ?_, hrev, ?_⟩
      · rw [channels_sync ht' p' hp', hsame, hchannels p hp, hsent]
      · intro habsent
        exact absurd (mem_present.mpr ⟨p, hp, by rw [hsame]⟩) habsent
  · refine ⟨[], ?_, by simp, fun _ => rfl⟩
    show ((h'.watched.find? (·.2.create = n)).map (·.1.sender)).getD _ = _
    rw [find?_watched_eq_none hpresent, List.append_nil]
    rfl

/-! ### One event on a stream -/

namespace Stream

/-- What an event can do. -/
inductive Moves (h : Handoff) (channels : Nat → List WatchEvent) (s : Stream) :
    StreamEvent → Stream → Prop
  | progressRequest : s.loop = .reading →
      Moves h channels s .progressRequest
        { s with loop := .sending (.progress h.sys.store.currentRevision) none }
  | endRequests : s.loop = .reading → Moves h channels s .endRequests { s with loop := .ended }
  | replied {n : Nat} {watchId : Int64} {progressNotify : Bool} {resp : WatchResponse} :
      s.loop = .waiting n watchId progressNotify → (n, resp) ∈ h.replies →
      Moves h channels s .replied
        { s with
          loop := .sending (.reply resp) (if resp.created then
            some { create := n, watchId, progressNotify } else none) }
  | readRevision {watchId : Int64} : s.loop = .canceling watchId →
      Moves h channels s .readRevision
        { s with loop := .sending (.canceled watchId h.sys.store.currentRevision) none }
  | sendFails {msg : Message} {spawn : Option Forwarder} : s.loop = .sending msg spawn →
      Moves h channels s .send { s with loop := .ended }
  | send {msg : Message} {spawn : Option Forwarder} : s.loop = .sending msg spawn →
      s.closed = false →
      Moves h channels s .send
        { s with
          loop := .reading
          out := s.out ++ [msg]
          forwarders := s.forwarders ++ spawn.toList }
  | recv {j : Nat} {f : Forwarder} {event : WatchEvent} : s.forwarders[j]? = some f →
      f.state = .idle → (channels f.create)[f.taken]? = some event →
      Moves h channels s (.recv j)
        (s.setForwarder j
          { f with taken := f.taken + 1, state := .sending (.event f.watchId event) })
  | recvNone {j : Nat} {f : Forwarder} : s.forwarders[j]? = some f → f.create ∉ h.present →
      Moves h channels s (.recvNone j) (s.setForwarder j { f with state := .ended })
  | tick {j : Nat} {f : Forwarder} : s.forwarders[j]? = some f → f.state = .idle →
      Moves h channels s (.tick j) (s.setForwarder j { f with state := .ticked })
  | tickIgnored {j : Nat} : Moves h channels s (.tick j) s
  | readTick {j : Nat} {f : Forwarder} : s.forwarders[j]? = some f → f.state = .ticked →
      Moves h channels s (.readTick j)
        (s.setForwarder j
          { f with state := .sending (.tick f.watchId h.sys.store.currentRevision) })
  | forward {j : Nat} {f : Forwarder} {msg : Message} : s.forwarders[j]? = some f →
      f.state = .sending msg →
      Moves h channels s (.forward j)
        { s.setForwarder j { f with state := .idle } with out := s.out ++ [msg] }
  | receive : Moves h channels s .receive { s with received := s.received + 1 }
  | disconnect : Moves h channels s .disconnect { s with closed := true }

omit [Crates] in
theorem moves_of_step {h : Handoff} {channels : Nat → List WatchEvent} {s s' : Stream}
    {ev : StreamEvent} (hstep : s.step h channels ev = some s') : Moves h channels s ev s' := by
  cases ev with
  | progressRequest =>
      simp only [step] at hstep
      split at hstep
      · next hloop =>
          cases hstep
          exact .progressRequest hloop
      · cases hstep
  | endRequests =>
      simp only [step] at hstep
      split at hstep
      · next hloop =>
          cases hstep
          exact .endRequests hloop
      · cases hstep
  | replied =>
      simp only [step] at hstep
      split at hstep
      · next hloop =>
          obtain ⟨⟨m, resp⟩, hfind, rfl⟩ := Option.map_eq_some_iff.mp hstep
          have hcreate := List.find?_some hfind
          simp only [decide_eq_true_eq] at hcreate
          subst hcreate
          exact .replied hloop (List.mem_of_find?_eq_some hfind)
      · cases hstep
  | readRevision =>
      simp only [step] at hstep
      split at hstep
      · next hloop =>
          cases hstep
          exact .readRevision hloop
      · cases hstep
  | send =>
      simp only [step] at hstep
      split at hstep
      · next hloop =>
          split at hstep
          · cases hstep
            exact .sendFails hloop
          · next hclosed =>
              split at hstep
              · cases hstep
                exact .send hloop (Bool.not_eq_true _ ▸ hclosed)
              · cases hstep
      · cases hstep
  | recv j =>
      obtain ⟨f, hf, hstep⟩ := Option.bind_eq_some_iff.mp hstep
      split at hstep
      · next hidle hevent =>
          cases hstep
          exact .recv hf hidle hevent
      · cases hstep
  | recvNone j =>
      obtain ⟨f, hf, hstep⟩ := Option.bind_eq_some_iff.mp hstep
      split at hstep
      · next hguard =>
          cases hstep
          refine .recvNone hf ?_
          intro hpresent
          rw [Handoff.isRegistered_iff.mpr hpresent] at hguard
          cases hguard.2.2
      · cases hstep
  | tick j =>
      obtain ⟨f, hf, hstep⟩ := Option.bind_eq_some_iff.mp hstep
      split at hstep
      · next hguard =>
          split at hstep
          · cases hstep
            exact .tick hf hguard.1
          · cases hstep
            exact .tickIgnored
      · cases hstep
  | readTick j =>
      obtain ⟨f, hf, hstep⟩ := Option.bind_eq_some_iff.mp hstep
      split at hstep
      · next hticked =>
          cases hstep
          exact .readTick hf hticked
      · cases hstep
  | forward j =>
      obtain ⟨f, hf, hstep⟩ := Option.bind_eq_some_iff.mp hstep
      split at hstep
      · next hsending =>
          split at hstep
          · cases hstep
            exact .forward hf hsending
          · cases hstep
      · cases hstep
  | receive =>
      simp only [step] at hstep
      split at hstep
      · cases hstep
        exact .receive
      · cases hstep
  | disconnect =>
      cases hstep
      exact .disconnect

end Stream

/-! ### One event of the server -/

namespace Hub

/-- What an event can do. -/
inductive Moves (hub : Hub) : HubEvent → Hub → Prop
  | handoff {ev : HandoffEvent} {h' : Handoff} : ev.besideStreams = true →
      hub.handoff.step ev = some h' → Moves hub (.handoff ev) (hub.sync h')
  | createRequest {i : Nat} {req : WatchCreateRequest} : (hub.streams i).loop = .reading →
      Moves hub (.createRequest i req)
        ((hub.sync (hub.handoff.create req)).setStream i
          { hub.streams i with
            loop := .waiting hub.handoff.issued.length (hub.handoff.chooseId req) req.progressNotify
            creates := (hub.streams i).creates ++ [hub.handoff.issued.length] })
  | cancelRequest {i : Nat} {watchId : Int64} {h' : Handoff} : (hub.streams i).loop = .reading →
      hub.handoff.step (.server (.cancelWatch watchId)) = some h' →
      Moves hub (.cancelRequest i watchId)
        ((hub.sync h').setStream i { hub.streams i with loop := .canceling watchId })
  | drop {i j : Nat} {f : Forwarder} {h' : Handoff} : (hub.streams i).forwarders[j]? = some f →
      hub.handoff.step (.server (.cancelWatch f.watchId)) = some h' →
      Moves hub (.drop i j)
        ((hub.sync h').setStream i ((hub.streams i).setForwarder j { f with state := .ended }))
  | stream {i : Nat} {ev : StreamEvent} {s' : Stream} :
      (hub.streams i).Moves hub.handoff hub.channels ev s' →
      Moves hub (.stream i ev) (hub.setStream i s')

theorem moves_of_step {hub hub' : Hub} {ev : HubEvent} (hstep : hub.step ev = some hub') :
    Moves hub ev hub' := by
  cases ev with
  | handoff ev =>
      simp only [step] at hstep
      split at hstep
      · next hev =>
          obtain ⟨h', hh', rfl⟩ := Option.map_eq_some_iff.mp hstep
          exact .handoff hev hh'
      · cases hstep
  | createRequest i req =>
      simp only [step] at hstep
      split at hstep
      · next hloop =>
          cases hstep
          exact .createRequest hloop
      · cases hstep
  | cancelRequest i watchId =>
      simp only [step] at hstep
      split at hstep
      · next hloop =>
          obtain ⟨h', hh', rfl⟩ := Option.map_eq_some_iff.mp hstep
          exact .cancelRequest hloop hh'
      · cases hstep
  | drop i j =>
      obtain ⟨f, hf, hstep⟩ := Option.bind_eq_some_iff.mp hstep
      split at hstep
      · split at hstep
        · obtain ⟨h', hh', rfl⟩ := Option.map_eq_some_iff.mp hstep
          exact .drop hf hh'
        · cases hstep
      · cases hstep
  | stream i ev =>
      obtain ⟨s', hs', rfl⟩ := Option.map_eq_some_iff.mp hstep
      exact .stream (Stream.moves_of_step hs')

omit [Crates] in
@[simp] theorem streams_setStream_self (hub : Hub) (i : Nat) (s : Stream) :
    (hub.setStream i s).streams i = s := by
  unfold setStream
  exact Function.update_self i s hub.streams

omit [Crates] in
theorem streams_setStream_of_ne (hub : Hub) {i k : Nat} (hk : k ≠ i) (s : Stream) :
    (hub.setStream i s).streams k = hub.streams k := by
  unfold setStream
  exact Function.update_of_ne hk s hub.streams

omit [Crates] in
/-- What holds of every stream, and of the one that changed. -/
theorem forall_setStream {P : Stream → Prop} {hub : Hub} (h : ∀ k, P (hub.streams k)) {i : Nat}
    {s : Stream} (hs : P s) (k : Nat) : P ((hub.setStream i s).streams k) := by
  by_cases hk : k = i
  · subst hk
    rw [hub.streams_setStream_self]
    exact hs
  · rw [hub.streams_setStream_of_ne hk]
    exact h k

omit [Crates] in
theorem out_setStream {hub : Hub} {i : Nat} {s : Stream} (hout : s.out = (hub.streams i).out)
    (k : Nat) : ((hub.setStream i s).streams k).out = (hub.streams k).out := by
  by_cases hk : k = i
  · subst hk
    rw [hub.streams_setStream_self, hout]
  · rw [hub.streams_setStream_of_ne hk]

/-- What is put on a stream was in the hand of its loop or of a forwarder. -/
theorem put_of_step {hub hub' : Hub} {ev : HubEvent} (hstep : hub.step ev = some hub') {i : Nat}
    {msg : Message} (hput : (hub'.streams i).out = (hub.streams i).out ++ [msg]) :
    (∃ spawn, ev = .stream i .send ∧ (hub.streams i).loop = .sending msg spawn) ∨
      ∃ j f, ev = .stream i (.forward j) ∧ (hub.streams i).forwarders[j]? = some f ∧
        f.state = .sending msg := by
  have hchanged : (hub'.streams i).out ≠ (hub.streams i).out := by
    rw [hput]
    simp
  cases moves_of_step hstep with
  | handoff => exact absurd rfl hchanged
  | createRequest | cancelRequest | drop =>
      refine absurd ?_ hchanged
      exact out_setStream (by rfl) i
  | @stream k ev s' hmoves =>
      by_cases hk : i = k
      · subst hk
        rw [hub.streams_setStream_self] at hput hchanged
        cases hmoves with
        | send hloop =>
            obtain rfl := List.singleton_inj.mp (List.append_cancel_left hput)
            exact .inl ⟨_, rfl, hloop⟩
        | forward hf hsending =>
            obtain rfl := List.singleton_inj.mp (List.append_cancel_left hput)
            exact .inr ⟨_, _, rfl, hf, hsending⟩
        | _ => exact absurd rfl hchanged
      · rw [hub.streams_setStream_of_ne hk] at hchanged
        exact absurd rfl hchanged

end Hub

/-! ### The wiring

What a stream has to know of the server is little: which of its creates were answered, and which of
them still have a watcher. Both only change in one direction while a create is not under way, so
what the stream knew stays true.
-/

omit [Crates] in
/-- No watcher belongs to a create that was refused. -/
theorem Tracked.not_present_of_refused {h : Handoff} (ht : Tracked h) {n : Nat}
    {resp : WatchResponse} (hr : (n, resp) ∈ h.replies) (hrefused : resp.created = false) :
    n ∉ h.present := by
  intro hn
  obtain ⟨e, he, rfl⟩ := List.mem_map.mp hn
  have hplaces := List.nodup_append.mp ht.nodup_places
  rcases ht.answered e he with hanswering | ⟨resp', hr', hcreated⟩
  · exact hplaces.2.2 _ (List.mem_map_of_mem hr) _ (List.mem_append_left _ hanswering) rfl
  · have heq := List.inj_on_of_nodup_map hplaces.1 hr hr' rfl
    rw [← (Prod.mk.inj heq).2, hrefused] at hcreated
    cases hcreated

/-- The watch id of the forwarder that sends a message, if a forwarder does. -/
def Message.forwardedFor : Message → Option Int64
  | .event watchId _ | .tick watchId _ => some watchId
  | .reply _ | .canceled _ _ | .progress _ => none

/-- Does the forwarder have an event in its hand? -/
def Forwarder.isForwarding (f : Forwarder) : Bool :=
  match f.state with
  | .sending (.event _ _) => true
  | _ => false

/-- Is there nothing more in its channel or its hand? -/
def Forwarder.isDrained (channel : List WatchEvent) (f : Forwarder) : Bool :=
  channel.length ≤ f.taken && !f.isForwarding

omit [Crates] in
theorem Forwarder.isDrained_iff {channel : List WatchEvent} {f : Forwarder} :
    f.isDrained channel = true ↔ channel.length ≤ f.taken ∧ f.isForwarding = false := by
  simp [isDrained]

/-- A forwarder belongs to a create of its stream that was answered, and sends under its watch id;
when it has ended, its watcher is gone. Its watcher may be gone already while there is something
left in the channel. -/
structure Forwarder.Wired (h : Handoff) (creates : List Nat) (f : Forwarder) : Prop where
  mem : f.create ∈ creates
  id : h.issued[f.create]? = some f.watchId
  answered : ∃ resp, (f.create, resp) ∈ h.replies
  ended : f.state = .ended → f.create ∉ h.present
  sending : ∀ msg, f.state = .sending msg → msg.forwardedFor = some f.watchId

/-- What the loop has in hand. -/
def LoopState.Wired (h : Handoff) (creates : List Nat) : LoopState → Prop
  | .waiting n watchId _ => n ∈ creates ∧ h.issued[n]? = some watchId
  | .sending msg none => msg.forwardedFor = none
  | .sending msg (some f) => f.Wired h creates ∧
      ∃ resp, msg = .reply resp ∧ resp.created = true ∧ resp.watchId = f.watchId
  | .reading | .canceling _ | .ended => True

omit [Crates] in
/-- The loop does not send what forwarders send. -/
theorem LoopState.Wired.forwardedFor_eq_none {h : Handoff} {creates : List Nat} {msg : Message}
    {spawn : Option Forwarder} (hloop : (LoopState.sending msg spawn).Wired h creates) :
    msg.forwardedFor = none := by
  cases spawn with
  | none => exact hloop
  | some f =>
      obtain ⟨-, resp, rfl, -⟩ := hloop
      rfl

/-- The create whose forwarder the loop will start. -/
def LoopState.attends (n : Nat) : LoopState → Prop
  | .waiting m _ _ => m = n
  | .sending _ (some f) => f.create = n
  | _ => False

/-- Every create of the stream was answered or is being waited for, and every registered watcher has
its forwarder or will get it. The loop goes through its creates one by one, so at most one of them
is pending; a loop that has ended starts no forwarder any more. -/
structure Stream.Wired (h : Handoff) (s : Stream) : Prop where
  creates_lt : ∀ n ∈ s.creates, n < h.issued.length
  forwarders : ∀ f ∈ s.forwarders, f.Wired h s.creates
  loop : s.loop.Wired h s.creates
  pending : ∀ n ∈ s.creates, (∃ resp, (n, resp) ∈ h.replies) ∨
    ∃ watchId progressNotify, s.loop = .waiting n watchId progressNotify
  spawned : s.loop ≠ .ended → ∀ n ∈ s.creates, n ∈ h.present →
    n ∈ s.forwarders.map Forwarder.create ∨ s.loop.attends n

omit [Crates] in
theorem Forwarder.Wired.not_coming {h : Handoff} {creates : List Nat} {f : Forwarder}
    (hf : f.Wired h creates) (ht : Tracked h) : f.create ∉ h.coming := by
  obtain ⟨resp, hresp⟩ := hf.answered
  exact ht.not_waiting_of_answered hresp

section

variable {h h' : Handoff} {creates : List Nat} {s : Stream}

omit [Crates] in
theorem Handoff.Extends.issued_eq (hext : h.Extends h') {n : Nat} {watchId : Int64}
    (hn : h.issued[n]? = some watchId) : h'.issued[n]? = some watchId := by
  obtain ⟨news, hnews⟩ := hext.issued
  obtain ⟨hlt, -⟩ := List.getElem?_eq_some_iff.mp hn
  rw [← hnews, List.getElem?_append_left hlt]
  exact hn

omit [Crates] in
theorem Forwarder.Wired.extends {f : Forwarder} (hf : f.Wired h creates) (ht : Tracked h)
    (hext : h.Extends h') : f.Wired h' creates where
  mem := hf.mem
  id := hext.issued_eq hf.id
  answered := by
    obtain ⟨resp, hresp⟩ := hf.answered
    exact ⟨resp, hext.replies.subset hresp⟩
  ended := by
    intro hended hpresent
    rcases hext.present hpresent with hpresent | hcoming
    · exact hf.ended hended hpresent
    · exact hf.not_coming ht hcoming
  sending := hf.sending

omit [Crates] in
/-- A forwarder that does something else. -/
theorem Forwarder.Wired.set {f f' : Forwarder} (hf : f.Wired h creates)
    (hcreate : f'.create = f.create) (hid : f'.watchId = f.watchId)
    (hended : f'.state = .ended → f.create ∉ h.present)
    (hsending : ∀ msg, f'.state = .sending msg → msg.forwardedFor = some f.watchId) :
    f'.Wired h creates where
  mem := hcreate ▸ hf.mem
  id := by rw [hcreate, hid, hf.id]
  answered := hcreate ▸ hf.answered
  ended := hcreate ▸ hended
  sending := hid ▸ hsending

omit [Crates] in
theorem LoopState.Wired.extends {loop : LoopState} (hloop : loop.Wired h creates) (ht : Tracked h)
    (hext : h.Extends h') : loop.Wired h' creates := by
  unfold LoopState.Wired at hloop ⊢
  split at hloop
  · exact ⟨hloop.1, hext.issued_eq hloop.2⟩
  · exact hloop
  · exact ⟨hloop.1.extends ht hext, hloop.2⟩
  · trivial
  · trivial
  · trivial

omit [Crates] in
/-- The server moves beside a stream. -/
theorem Stream.Wired.extends (hs : s.Wired h) (ht : Tracked h) (hext : h.Extends h') :
    s.Wired h' where
  creates_lt := fun n hn => Nat.lt_of_lt_of_le (hs.creates_lt n hn) hext.issued.length_le
  forwarders := fun f hf => (hs.forwarders f hf).extends ht hext
  loop := hs.loop.extends ht hext
  pending := by
    intro n hn
    rcases hs.pending n hn with ⟨resp, hresp⟩ | hwaiting
    · exact .inl ⟨resp, hext.replies.subset hresp⟩
    · exact .inr hwaiting
  spawned := by
    intro hended n hn hpresent
    rcases hext.present hpresent with hpresent | hcoming
    · exact hs.spawned hended n hn hpresent
    · rcases hs.pending n hn with ⟨resp, hresp⟩ | ⟨watchId, progressNotify, hwaiting⟩
      · exact absurd hcoming (ht.not_waiting_of_answered hresp)
      · rw [hwaiting]
        exact .inr rfl

omit [Crates] in
/-- A forwarder moves on. -/
theorem Stream.Wired.setForwarder (hs : s.Wired h) {j : Nat} {f f' : Forwarder}
    (hf : s.forwarders[j]? = some f) (hcreate : f'.create = f.create)
    (hf' : f'.Wired h s.creates) : (s.setForwarder j f').Wired h where
  creates_lt := hs.creates_lt
  forwarders := by
    intro g hg
    rcases List.mem_or_eq_of_mem_set hg with hg | rfl
    · exact hs.forwarders g hg
    · exact hf'
  loop := hs.loop
  pending := hs.pending
  spawned := by
    intro hended n hn hpresent
    have hsame : (s.forwarders.set j f').map Forwarder.create
        = s.forwarders.map Forwarder.create := by
      obtain ⟨hj, rfl⟩ := List.getElem?_eq_some_iff.mp hf
      have hj' : j < (s.forwarders.map Forwarder.create).length := by simpa using hj
      have hold : (s.forwarders.map Forwarder.create)[j] = s.forwarders[j].create :=
        List.getElem_map _
      rw [List.map_set, hcreate, ← hold, List.set_getElem_self]
    rcases hs.spawned hended n hn hpresent with hspawned | hattends
    · exact .inl (hsame ▸ hspawned)
    · exact .inr hattends

omit [Crates] in
/-- The loop goes from one thing to another that starts no forwarder. -/
theorem Stream.Wired.setLoop (hs : s.Wired h) {loop : LoopState} (hloop : loop.Wired h s.creates)
    (hwaiting : ∀ n watchId progressNotify, s.loop ≠ .waiting n watchId progressNotify)
    (hattends : loop ≠ .ended → s.loop ≠ .ended ∧ ∀ n, ¬ s.loop.attends n) :
    Stream.Wired h { s with loop } where
  creates_lt := hs.creates_lt
  forwarders := hs.forwarders
  loop := hloop
  pending := by
    intro n hn
    rcases hs.pending n hn with hanswered | ⟨watchId, progressNotify, hwait⟩
    · exact .inl hanswered
    · exact absurd hwait (hwaiting n watchId progressNotify)
  spawned := by
    intro hended n hn hpresent
    obtain ⟨hrunning, hnone⟩ := hattends hended
    rcases hs.spawned hrunning n hn hpresent with hspawned | hattends
    · exact .inl hspawned
    · exact absurd hattends (hnone n)

omit [Crates] in
/-- The answer to a create arrives. -/
theorem Stream.Wired.replied (hs : s.Wired h) (ht : Tracked h) {n : Nat} {watchId : Int64}
    {progressNotify : Bool} {resp : WatchResponse}
    (hloop : s.loop = .waiting n watchId progressNotify) (hresp : (n, resp) ∈ h.replies) :
    Stream.Wired h
      { s with
        loop := .sending (.reply resp) (if resp.created then
          some { create := n, watchId, progressNotify } else none) } := by
  have hwaiting := hs.loop
  rw [hloop] at hwaiting
  obtain ⟨hmem, hid⟩ := hwaiting
  refine ⟨hs.creates_lt, hs.forwarders, ?_, ?_, ?_⟩
  · by_cases hcreated : resp.created = true
    · rw [if_pos hcreated]
      refine ⟨⟨hmem, hid, ⟨resp, hresp⟩, nofun, nofun⟩, resp, rfl, hcreated, ?_⟩
      -- the response carries the ID that was issued to this request
      have hissued := ht.created (n, resp) hresp hcreated
      rw [hid] at hissued
      exact (Option.some.inj hissued).symm
    · rw [if_neg hcreated]
      rfl
  · intro m hm
    rcases hs.pending m hm with hanswered | ⟨_, _, hwait⟩
    · exact .inl hanswered
    · rw [hloop] at hwait
      cases hwait
      exact .inl ⟨resp, hresp⟩
  · intro _ m hm hpresent
    rcases hs.spawned (by rw [hloop]; nofun) m hm hpresent with hspawned | hattends
    · exact .inl hspawned
    · rw [hloop] at hattends
      obtain rfl : n = m := hattends
      by_cases hcreated : resp.created = true
      · rw [if_pos hcreated]
        exact .inr rfl
      · rw [Bool.not_eq_true] at hcreated
        -- a refused request never has a channel, so no forwarder is missing
        exact absurd hpresent (ht.not_present_of_refused hresp hcreated)

omit [Crates] in
/-- A response is put on the stream, and the forwarder it announces is started. -/
theorem Stream.Wired.sent (hs : s.Wired h) {msg : Message} {spawn : Option Forwarder}
    (hloop : s.loop = .sending msg spawn) :
    Stream.Wired h
      { s with
        loop := .reading
        out := s.out ++ [msg]
        forwarders := s.forwarders ++ spawn.toList } where
  creates_lt := hs.creates_lt
  forwarders := by
    intro f hf
    rcases List.mem_append.mp hf with hf | hf
    · exact hs.forwarders f hf
    · have hsending := hs.loop
      rw [hloop, Option.mem_toList.mp hf] at hsending
      exact hsending.1
  loop := trivial
  pending := by
    intro n hn
    rcases hs.pending n hn with hanswered | ⟨_, _, hwait⟩
    · exact .inl hanswered
    · rw [hloop] at hwait
      cases hwait
  spawned := by
    intro _ n hn hpresent
    refine .inl ?_
    rw [List.map_append]
    rcases hs.spawned (by rw [hloop]; nofun) n hn hpresent with hspawned | hattends
    · exact List.mem_append_left _ hspawned
    · rw [hloop] at hattends
      cases spawn with
      | none => cases hattends
      | some f =>
          obtain rfl : f.create = n := hattends
          exact List.mem_append_right _ List.mem_cons_self

omit [Crates] in
theorem Forwarder.Wired.mono {f : Forwarder} (hf : f.Wired h creates) {creates' : List Nat}
    (hsub : creates ⊆ creates') : f.Wired h creates' :=
  ⟨hsub hf.mem, hf.id, hf.answered, hf.ended, hf.sending⟩

omit [Crates] in
/-- The loop takes a create and waits for its answer. -/
theorem Stream.Wired.created {req : WatchCreateRequest}
    (hs : s.Wired (h.create req)) (hloop : s.loop = .reading)
    (hlt : ∀ n ∈ s.creates, n < h.issued.length) :
    Stream.Wired (h.create req)
      { s with
        loop := .waiting h.issued.length (h.chooseId req) req.progressNotify
        creates := s.creates ++ [h.issued.length] } := by
  have hissued : (h.create req).issued = h.issued ++ [h.chooseId req] := rfl
  refine ⟨?_, ?_, ?_, ?_, ?_⟩
  · intro n hn
    rw [hissued, List.length_append]
    rcases List.mem_append.mp hn with hn | hn
    · exact Nat.lt_succ_of_lt (hlt n hn)
    · rw [List.mem_singleton.mp hn]
      exact Nat.lt_succ_self _
  · exact fun f hf => (hs.forwarders f hf).mono (List.subset_append_left _ _)
  · -- the stream waits for the answer to the request it has just sent
    refine ⟨List.mem_append_right _ List.mem_cons_self, ?_⟩
    rw [hissued]
    exact List.getElem?_concat_length
  · intro n hn
    rcases List.mem_append.mp hn with hn | hn
    · rcases hs.pending n hn with hanswered | ⟨_, _, hwait⟩
      · exact .inl hanswered
      · rw [hloop] at hwait
        cases hwait
    · rw [List.mem_singleton.mp hn]
      exact .inr ⟨_, _, rfl⟩
  · intro _ n hn hpresent
    rcases List.mem_append.mp hn with hn | hn
    · rcases hs.spawned (by rw [hloop]; nofun) n hn hpresent with hspawned | hattends
      · exact .inl hspawned
      · rw [hloop] at hattends
        cases hattends
    · exact .inr (List.mem_singleton.mp hn).symm

omit [Crates] in
/-- **One event on a stream keeps its wiring.** The server stands still; what changes is what the
loop and the forwarders have in hand. -/
theorem Stream.Wired.moves {channels : Nat → List WatchEvent} {ev : StreamEvent} {s' : Stream}
    (hs : s.Wired h) (ht : Tracked h) (hmoves : s.Moves h channels ev s') : s'.Wired h := by
  cases hmoves with
  | progressRequest hloop | readRevision hloop =>
      refine hs.setLoop rfl ?_ ?_ <;> rw [hloop]
      · nofun
      · exact fun _ => ⟨nofun, fun _ => id⟩
  | endRequests hloop =>
      refine hs.setLoop trivial ?_ ?_
      · rw [hloop]
        nofun
      · exact fun hended => absurd rfl hended
  | replied hloop hresp => exact hs.replied ht hloop hresp
  | sendFails hloop =>
      refine hs.setLoop trivial ?_ ?_
      · rw [hloop]
        nofun
      · exact fun hended => absurd rfl hended
  | send hloop => exact hs.sent hloop
  | recv hf hidle hevent =>
      have hwired := hs.forwarders _ (List.mem_of_getElem? hf)
      refine hs.setForwarder hf rfl (hwired.set rfl rfl nofun ?_)
      intro msg hsending
      cases hsending
      rfl
  | recvNone hf habsent =>
      have hwired := hs.forwarders _ (List.mem_of_getElem? hf)
      exact hs.setForwarder hf rfl (hwired.set rfl rfl (fun _ => habsent) nofun)
  | tick hf hidle =>
      have hwired := hs.forwarders _ (List.mem_of_getElem? hf)
      exact hs.setForwarder hf rfl (hwired.set rfl rfl nofun nofun)
  | tickIgnored => exact hs
  | readTick hf hticked =>
      have hwired := hs.forwarders _ (List.mem_of_getElem? hf)
      refine hs.setForwarder hf rfl (hwired.set rfl rfl nofun ?_)
      intro msg hsending
      cases hsending
      rfl
  | @forward j f msg hf hsending =>
      have hwired := hs.forwarders _ (List.mem_of_getElem? hf)
      have hset : (s.setForwarder j { f with state := .idle }).Wired h :=
        hs.setForwarder hf rfl (hwired.set rfl rfl nofun nofun)
      exact { hset with }
  | receive | disconnect => exact { hs with }

end

/-- **The streams, the watchers and the channels hang together.** Every other statement about
streams starts from this one. -/
structure Hub.Wired (hub : Hub) : Prop where
  faults : hub.handoff.sys.store.wal.faults = []
  tracked : Tracked hub.handoff
  channels : ∀ p ∈ hub.handoff.watched, hub.channels p.2.create = p.1.sender
  streams : ∀ i, (hub.streams i).Wired hub.handoff

omit [Crates] in
theorem Hub.wired_start {sys : System} (hs : sys.store.wal.faults = [])
    (hw : sys.store.watchers = []) : (Hub.start sys).Wired where
  faults := hs
  tracked := tracked_start hw
  channels := by simp [Hub.start, Handoff.watched, Handoff.start]
  streams := by
    intro i
    exact ⟨by simp [Hub.start], by simp [Hub.start], trivial, by simp [Hub.start],
      by simp [Hub.start]⟩

/-- The server moves. -/
theorem Hub.Wired.sync {hub : Hub} (hw : hub.Wired) {ev : HandoffEvent} {h' : Handoff}
    (hev : ∀ now, ev ≠ .server (.restart now)) (hstep : hub.handoff.step ev = some h') :
    (hub.sync h').Wired ∧ hub.handoff.Extends h' := by
  have hext := Handoff.extends_of_step hw.tracked hw.faults hev hstep
  have ht' := hw.tracked.step hw.faults hstep
  exact ⟨⟨Handoff.faults_of_step hw.faults hstep, ht', channels_sync ht',
    fun i => (hw.streams i).extends hw.tracked hext⟩, hext⟩

omit [Crates] in
/-- A stream moves. -/
theorem Hub.Wired.setStream {hub : Hub} (hw : hub.Wired) {i : Nat} {s : Stream}
    (hs : s.Wired hub.handoff) : (hub.setStream i s).Wired where
  faults := hw.faults
  tracked := hw.tracked
  channels := hw.channels
  streams := Hub.forall_setStream hw.streams hs

omit [Crates] in
/-- A watcher that is gone, and whose create is not under way, stays away. -/
theorem Handoff.Extends.not_present {h h' : Handoff} (hext : h.Extends h') {n : Nat}
    (hpresent : n ∉ h.present) (hcoming : n ∉ h.coming) : n ∉ h'.present := by
  intro hn
  rcases hext.present hn with hn | hn
  · exact hpresent hn
  · exact hcoming hn

/-- A canceled watcher is gone. -/
theorem not_present_of_cancel {h h' : Handoff} (ht : Tracked h)
    (hs : h.sys.store.wal.faults = []) {watchId : Int64}
    (hstep : h.step (.server (.cancelWatch watchId)) = some h') {n : Nat}
    (hn : h.issued[n]? = some watchId) : n ∉ h'.present := by
  intro hpresent
  cases Handoff.moves_of_step hs hstep
  obtain ⟨p, hp, rfl⟩ := mem_present.mp hpresent
  rw [Handoff.watched, watched_cancel ht.length] at hp
  obtain ⟨hp, hne⟩ := List.mem_filter.mp hp
  have hid := ht.ids (p.2.create, p.1.watchId)
    (List.mem_append_left _ (List.mem_map.mpr ⟨p, hp, rfl⟩))
  rw [hn] at hid
  exact of_decide_eq_true hne (Option.some.inj hid).symm

omit [Crates] in
theorem besideStreams_ne_restart {ev : HandoffEvent} (hev : ev.besideStreams = true) :
    ∀ now, ev ≠ .server (.restart now) := by
  intro now heq
  rw [heq] at hev
  cases hev

/-- **One event keeps everything wired.** A create and a cancel move the stream and the server at
once; first the server is moved beside all streams, and then the stream. -/
theorem Hub.Wired.step {hub hub' : Hub} {ev : HubEvent} (hw : hub.Wired)
    (hstep : hub.step ev = some hub') : hub'.Wired := by
  cases Hub.moves_of_step hstep with
  | handoff hev hh' => exact (hw.sync (besideStreams_ne_restart hev) hh').1
  | @createRequest i req hloop =>
      have hcreate : hub.handoff.step (.create req) = some (hub.handoff.create req) := rfl
      obtain ⟨hsync, -⟩ := hw.sync (fun _ h => by cases h) hcreate
      exact hsync.setStream ((hsync.streams i).created hloop (hw.streams i).creates_lt)
  | @cancelRequest i watchId h' hloop hh' =>
      obtain ⟨hsync, -⟩ := hw.sync (fun _ h => by cases h) hh'
      have hs := hsync.streams i
      change Stream.Wired h' (hub.streams i) at hs
      refine hsync.setStream (hs.setLoop trivial ?_ ?_)
      · rw [hloop]
        nofun
      · rw [hloop]
        exact fun _ => ⟨nofun, fun _ => id⟩
  | @drop i j f h' hf hh' =>
      obtain ⟨hsync, -⟩ := hw.sync (fun _ h => by cases h) hh'
      have hwired := (hsync.streams i).forwarders f (List.mem_of_getElem? hf)
      have hid := ((hw.streams i).forwarders f (List.mem_of_getElem? hf)).id
      have hgone := not_present_of_cancel hw.tracked hw.faults hh' hid
      exact hsync.setStream ((hsync.streams i).setForwarder hf rfl
        (hwired.set rfl rfl (fun _ => hgone) nofun))
  | @stream i ev s' hmoves =>
      exact hw.setStream ((hw.streams i).moves hw.tracked hmoves)

/-- Everything stays wired. -/
theorem Hub.Wired.run {hub hub' : Hub} {evs : List HubEvent} (hw : hub.Wired)
    (hrun : hub.run evs = some hub') : hub'.Wired :=
  Trace.invariant_of_step (fun _ _ _ hw hstep => hw.step hstep) hw hrun

end

end Rudurru
