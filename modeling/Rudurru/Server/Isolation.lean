import Rudurru.Server.StreamSound

/-!
# Rudurru.Server.Isolation

Requests on one stream and the watchers of another.

Watch ids are looked up in one list for all streams, so a cancel request takes away the watcher with
its id whichever stream created it (`cancel_reaches_other_stream`). That is all one stream can do to
another: the watchers of the other stay as they are exactly when no cancel request names one of them
(`watchers_unchanged_iff`).

The creates on a stream are numbered, and a watcher carries the number of its create; so the
watchers of a stream are those whose number is one of its creates. An event that another stream
causes is followed through the hand-off (`watchersOf_step`): what it adds was under way before, what
it takes away has the id of a cancel request.
-/

namespace Rudurru

/-- Is the event a step of the flush? -/
def HandoffEvent.isFlush : HandoffEvent → Bool
  | .server _ | .create _ => false
  | _ => true

/-- Is it a create or cancel request on the stream, or part of answering one? -/
def HubEvent.serves (i : Nat) : HubEvent → Bool
  | .createRequest k _ | .cancelRequest k _ | .stream k .replied | .stream k .readRevision
  | .stream k .send => k = i
  | .handoff ev => ev.isFlush
  | _ => false

/-- The ids of the cancel requests. -/
def canceledIds (evs : List HubEvent) : List Int64 :=
  evs.filterMap fun
    | .cancelRequest _ watchId => some watchId
    | _ => none

theorem mem_canceledIds {evs : List HubEvent} {watchId : Int64} :
    watchId ∈ canceledIds evs ↔ ∃ i, .cancelRequest i watchId ∈ evs := by
  rw [canceledIds, List.mem_filterMap]
  constructor
  · intro h
    obtain ⟨ev, hev, heq⟩ := h
    cases ev with
    | cancelRequest i id =>
        cases heq
        exact ⟨i, hev⟩
    | _ => cases heq
  · intro h
    obtain ⟨i, hev⟩ := h
    exact ⟨_, hev, rfl⟩

theorem canceledIds_append (evs evs' : List HubEvent) :
    canceledIds (evs ++ evs') = canceledIds evs ++ canceledIds evs' := List.filterMap_append

/-- The watchers whose ids are not canceled. -/
def spared (evs : List HubEvent) (watched : List (WatchRegistration × Origin)) :
    List (WatchRegistration × Origin) :=
  watched.filter (·.1.watchId ∉ canceledIds evs)

theorem spared_eq_self {evs : List HubEvent} (h : canceledIds evs = [])
    (watched : List (WatchRegistration × Origin)) : spared evs watched = watched := by
  refine List.filter_eq_self.mpr ?_
  intro p _
  rw [h]
  simp

theorem spared_append (evs : List HubEvent) (l l' : List (WatchRegistration × Origin)) :
    spared evs (l ++ l') = spared evs l ++ spared evs l' := List.filter_append _ _

theorem spared_spared (evs evs' : List HubEvent) (l : List (WatchRegistration × Origin)) :
    spared evs' (spared evs l) = spared (evs ++ evs') l := by
  rw [spared, spared, List.filter_filter, spared, canceledIds_append]
  refine List.filter_congr ?_
  intro p _
  simp [Bool.and_comm]

section

variable [Crates]

/-- A flush adds watchers whose creates were under way. -/
theorem watched_of_flush {h h' : Handoff} {ev : HandoffEvent} (ht : Tracked h)
    (hs : h.sys.store.wal.faults = []) (hev : ev.isFlush = true) (hstep : h.step ev = some h') :
    ∃ new, h'.watched = h.watched ++ new ∧ ∀ p ∈ new, p.2.create ∈ h.coming := by
  cases Handoff.moves_of_step hs hstep with
  | request | cancelWatch | compactA | compactB | compactC | compactFails | restart | create =>
      cases hev
  | @phase2 f st hf hstage =>
      have hentries := entry_flushPhase2 h.sys.store.wal.contents f.checkpointRev
        f.checkpointOffset st
      obtain ⟨hwatched, hcoming⟩ := watched_register ht hf hstage hentries
      refine ⟨_, hwatched, ?_⟩
      intro p hp
      obtain ⟨ctx, hctx, rfl⟩ := List.mem_map.mp hp
      exact hcoming ctx hctx
  | _ => exact ⟨[], (List.append_nil _).symm, by simp⟩

variable {hub hub' : Hub} {A B : Nat}

omit [Crates] in
theorem watchersOf_setStream {i : Nat} (hi : B ≠ i) (s : Stream) :
    (hub.setStream i s).watchersOf B = hub.watchersOf B := by
  rw [Hub.watchersOf, Hub.streams_setStream_of_ne _ hi]
  rfl

/-- One event of another stream: watchers go when their id is canceled, and come from creates that
were under way. -/
theorem watchersOf_step {ev : HubEvent} (hw : hub.Wired) (hAB : A ≠ B)
    (hev : ev.serves A = true) (hstep : hub.step ev = some hub') :
    (hub'.streams B).creates = (hub.streams B).creates ∧
      hub.handoff.Extends hub'.handoff ∧
      ∃ new, hub'.watchersOf B = spared [ev] (hub.watchersOf B) ++ new ∧
        ∀ p ∈ new, p.2.create ∈ hub.handoff.coming := by
  cases Hub.moves_of_step hstep with
  -- the flush may register watchers of `B`, and removes none
  | @handoff ev h' hbeside hh' =>
      obtain ⟨new, hwatched, hcoming⟩ := watched_of_flush hw.tracked hw.faults hev hh'
      have hext := (hw.sync (besideStreams_ne_restart hbeside) hh').2
      refine ⟨rfl, hext, new.filter (·.2.create ∈ (hub.streams B).creates), ?_, ?_⟩
      · rw [spared_eq_self rfl]
        show h'.watched.filter _ = _
        rw [hwatched, List.filter_append]
        rfl
      · exact fun p hp => hcoming p (List.mem_filter.mp hp).1
  | @createRequest i req hloop =>
      obtain rfl : i = A := of_decide_eq_true hev
      have hcreate : hub.handoff.step (.create req) = some (hub.handoff.create req) := rfl
      have hext := (hw.sync (fun _ h => by cases h) hcreate).2
      refine ⟨?_, hext, [], ?_, by simp⟩
      · rw [Hub.streams_setStream_of_ne _ hAB.symm]
        rfl
      · rw [watchersOf_setStream hAB.symm, spared_eq_self rfl, List.append_nil]
        rfl
  -- a cancel goes by the ID alone, so it may hit a watcher of `B`
  | @cancelRequest i watchId h' hloop hh' =>
      obtain rfl : i = A := of_decide_eq_true hev
      have hext := (hw.sync (fun _ h => by cases h) hh').2
      refine ⟨?_, hext, [], ?_, by simp⟩
      · rw [Hub.streams_setStream_of_ne _ hAB.symm]
        rfl
      · rw [watchersOf_setStream hAB.symm, List.append_nil]
        cases Handoff.moves_of_step hw.faults hh'
        show ((hub.handoff.sys.store.cancelWatcher watchId).watchers.zip
          (hub.handoff.cancelOrigins watchId)).filter (·.2.create ∈ (hub.streams B).creates) = _
        rw [watched_cancel hw.tracked.length, spared, Hub.watchersOf, List.filter_filter,
          List.filter_filter]
        refine List.filter_congr ?_
        intro p _
        simp [canceledIds, Bool.and_comm]
  | drop => cases hev
  | @stream i ev s' hmoves =>
      -- what the streams do by themselves is done by `A`
      have hi : B ≠ i := by
        rintro rfl
        cases ev with
        | replied | readRevision | send => exact hAB (of_decide_eq_true hev).symm
        | _ => cases hev
      refine ⟨by rw [Hub.streams_setStream_of_ne _ hi], ?_, [], ?_, by simp⟩
      · exact .of_same rfl List.prefix_rfl (fun n hn => hn) (fun p hp => hp)
      · rw [watchersOf_setStream hi, spared_eq_self rfl, List.append_nil]

/-- **A run of requests on another stream**: watchers go when their id is canceled, and come from
creates that were under way. By induction on the events, with what the creates of the stream bring
in between. -/
theorem watchersOf_run {evs : List HubEvent} (hw : hub.Wired) (hAB : A ≠ B)
    (hevs : ∀ ev ∈ evs, ev.serves A = true) (hrun : hub.run evs = some hub') :
    (hub'.streams B).creates = (hub.streams B).creates ∧
      ∃ new, hub'.watchersOf B = spared evs (hub.watchersOf B) ++ new ∧
        ∀ p ∈ new, p.2.create ∈ hub.handoff.coming := by
  induction evs generalizing hub with
  | nil =>
      cases hrun
      exact ⟨rfl, [], by rw [spared_eq_self rfl, List.append_nil], by simp⟩
  | cons ev evs ih =>
      rw [Hub.run, Trace.run_cons, Option.bind_eq_some_iff] at hrun
      obtain ⟨hub₁, hstep, hrun⟩ := hrun
      obtain ⟨hcreates, hext, new₁, hnew₁, hcoming₁⟩ :=
        watchersOf_step hw hAB (hevs ev List.mem_cons_self) hstep
      obtain ⟨hcreates', new₂, hnew₂, hcoming₂⟩ :=
        ih (hw.step hstep) (fun ev' hev' => hevs ev' (List.mem_cons_of_mem _ hev')) hrun
      refine ⟨hcreates'.trans hcreates, spared evs new₁ ++ new₂, ?_, ?_⟩
      · rw [hnew₂, hnew₁, spared_append, spared_spared, List.append_assoc, List.singleton_append]
      · intro p hp
        rcases List.mem_append.mp hp with hp | hp
        · exact hcoming₁ p (List.mem_filter.mp hp).1
        · -- a create of the other stream is no newer than the run
          have hcreate : p.2.create ∈ (hub.streams B).creates := by
            have hmem : p ∈ hub'.watchersOf B := by
              rw [hnew₂]
              exact List.mem_append_right _ hp
            rw [← hcreates, ← hcreates']
            exact of_decide_eq_true (List.mem_filter.mp hmem).2
          rcases hext.coming _ (hcoming₂ p hp) with hcoming | hnew
          · exact hcoming
          · exact absurd ((hw.streams B).creates_lt _ hcreate) (by rw [hnew]; exact Nat.lt_irrefl _)

/-- **Requests on one stream leave the watchers of another as they are, exactly when no cancel
request names one of them.** What is added comes from creates of the other stream that were under
way. -/
theorem watchers_unchanged_iff {now : Nat} {contents : Bytes} {sys₀ : System}
    (hboot : System.boot now contents = some sys₀) {evs₀ : List HubEvent}
    (hreach : (Hub.start sys₀).run evs₀ = some hub) (hAB : A ≠ B) {evs : List HubEvent}
    (hevs : ∀ ev ∈ evs, ev.serves A = true) (hrun : hub.run evs = some hub') :
    (∃ new, hub'.watchersOf B = hub.watchersOf B ++ new ∧
        ∀ p ∈ new, p.2.create ∈ hub.handoff.coming) ↔
      ∀ watchId, .cancelRequest A watchId ∈ evs →
        ∀ p ∈ hub.watchersOf B, p.1.watchId ≠ watchId := by
  obtain ⟨s₀, hopen, rfl⟩ := boot_eq_some hboot
  have hstart : (Hub.start ⟨s₀, none⟩).Wired := by
    obtain ⟨_, _, _, _, _, rfl⟩ := openStore_eq_ok hopen
    exact Hub.wired_start rfl rfl
  have hw := Hub.Wired.run hstart hreach
  obtain ⟨-, new, hnew, hcoming⟩ := watchersOf_run hw hAB hevs hrun
  constructor
  · intro hunchanged watchId hcancel p hp hid
    obtain ⟨new', hnew', -⟩ := hunchanged
    have hp' : p ∈ hub'.watchersOf B := by
      rw [hnew']
      exact List.mem_append_left _ hp
    rw [hnew] at hp'
    -- a watcher that is still there was spared by the cancels, or was registered later; but this
    -- one was there before
    rcases List.mem_append.mp hp' with hspared | hlate
    · refine absurd (mem_canceledIds.mpr ⟨A, hcancel⟩) ?_
      rw [← hid]
      exact of_decide_eq_true (List.mem_filter.mp hspared).2
    · have hpresent : p.2.create ∈ hub.handoff.present :=
        mem_present.mpr ⟨p, (List.mem_filter.mp hp).1, rfl⟩
      exact hw.tracked.not_registered_of_waiting (hcoming p hlate) hpresent
  · intro hnone
    refine ⟨new, ?_, hcoming⟩
    rw [hnew, spared, List.filter_eq_self.mpr]
    intro p hp
    refine decide_eq_true ?_
    intro hcanceled
    obtain ⟨i, hcancel⟩ := mem_canceledIds.mp hcanceled
    have hi : i = A := of_decide_eq_true (hevs _ hcancel)
    exact hnone _ (hi ▸ hcancel) p hp rfl

end

/-- Stream 1 has a watch, and stream 0 cancels an id that nobody has. -/
theorem watchers_unchanged_by_other_id :
    ∃ sys₀ hub hub', System.boot 0 [] = some sys₀ ∧
      (Hub.start sys₀).run (undisturbedCreate 1 { key := [1], watchId := 7 } 0) = some hub ∧
      hub.run [.cancelRequest 0 9, .stream 0 .readRevision, .stream 0 .send] = some hub' ∧
      (hub.watchersOf 1).map (·.1.watchId) = [7] ∧
      ∃ new, hub'.watchersOf 1 = hub.watchersOf 1 ++ new ∧
        ∀ p ∈ new, p.2.create ∈ hub.handoff.coming := by
  have hrun : ((System.boot 0 []).any fun sys₀ =>
      ((Hub.start sys₀).run (undisturbedCreate 1 { key := [1], watchId := 7 } 0)).any fun hub =>
        (hub.run [.cancelRequest 0 9, .stream 0 .readRevision, .stream 0 .send]).any fun _ =>
          (hub.watchersOf 1).map (·.1.watchId) = [7]) = true := by
    decide +kernel
  obtain ⟨sys₀, hboot, hrun⟩ := (Option.any_eq_true _ _).mp hrun
  obtain ⟨hub, hhub, hrun⟩ := (Option.any_eq_true _ _).mp hrun
  obtain ⟨hub', hhub', hrun⟩ := (Option.any_eq_true _ _).mp hrun
  have hids := of_decide_eq_true hrun
  refine ⟨sys₀, hub, hub', hboot, hhub, hhub', hids,
    (watchers_unchanged_iff hboot hhub (A := 0) (B := 1) (by decide) (by decide) hhub').mpr ?_⟩
  intro watchId hcancel p hp hid
  have hseven : p.1.watchId ∈ (hub.watchersOf 1).map (·.1.watchId) := List.mem_map_of_mem hp
  rw [hids, hid] at hseven
  simp at hcancel
  rw [hcancel] at hseven
  exact absurd hseven (by decide)

/-- Stream 0 cancels the watch of stream 1. -/
theorem cancel_reaches_other_stream :
    ∃ sys₀ hub hub', System.boot 0 [] = some sys₀ ∧
      (Hub.start sys₀).run (undisturbedCreate 1 { key := [1], watchId := 7 } 0) = some hub ∧
      hub.run [.cancelRequest 0 7, .stream 0 .readRevision, .stream 0 .send] = some hub' ∧
      (hub.watchersOf 1).map (·.1.watchId) = [7] ∧ hub'.watchersOf 1 = [] := by
  have hrun : ((System.boot 0 []).any fun sys₀ =>
      ((Hub.start sys₀).run (undisturbedCreate 1 { key := [1], watchId := 7 } 0)).any fun hub =>
        (hub.run [.cancelRequest 0 7, .stream 0 .readRevision, .stream 0 .send]).any fun hub' =>
          (hub.watchersOf 1).map (·.1.watchId) = [7] ∧ (hub'.watchersOf 1).isEmpty) = true := by
    decide +kernel
  obtain ⟨sys₀, hboot, hrun⟩ := (Option.any_eq_true _ _).mp hrun
  obtain ⟨hub, hhub, hrun⟩ := (Option.any_eq_true _ _).mp hrun
  obtain ⟨hub', hhub', hrun⟩ := (Option.any_eq_true _ _).mp hrun
  obtain ⟨hids, hempty⟩ := of_decide_eq_true hrun
  exact ⟨sys₀, hub, hub', hboot, hhub, hhub', hids, List.isEmpty_iff.mp hempty⟩

end Rudurru
