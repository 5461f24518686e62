import Rudurru.Listing
import Rudurru.Server.Rebuilt
import Rudurru.Server.Transport

/-!
# Rudurru.Server.Replica

A client's copy of a range. It starts from the response to a range and is kept up with the events
that come on a watch stream; the client reads keys off the blobs it gets and nothing else
(`getElem?_receiveAll`). What a copy should show is the `view` of a state. One that shows it goes on
to show it when it is given the events of all writes to the range (`Replica.Shows.run`).

A copy is a log with the last blob of each key deciding (`Lib.KeyedLog`). An event names its key in
the blob that it carries, also a deletion, whose blob is that of the entry with the new revision; so
the reader of events and the keyspace look at the same key (`Named`). The filter for the range
commutes with all of it, since it looks at keys only.
-/

namespace Rudurru

open Std (ExtTreeMap)
open KeyedLog (lastFrom)

/-! ### The client -/

/-- The blobs of a range by their keys. -/
abbrev Replica := ExtTreeMap Bytes Bytes

section

variable [Crates]

/-- The key that a client reads off an event. -/
def EventMessage.key? (m : EventMessage) : Option Bytes := blobKey m.kv

/-- The blob that the key has from then on. -/
def EventMessage.value (m : EventMessage) : Option Bytes :=
  match m.type with
  | .put => some m.kv
  | .delete => none

/-- An event comes in. -/
def Replica.receive (r : Replica) (m : EventMessage) : Replica :=
  match m.key?, m.value with
  | none, _ => r
  | some key, some kv => r.insert key kv
  | some key, none => r.erase key

/-- Events come in. -/
def Replica.receiveAll (r : Replica) (ms : List EventMessage) : Replica :=
  ms.foldl Replica.receive r

/-- The copy that a client makes of a response: as if every key had been put. -/
def RangeResponse.replica (resp : RangeResponse) : Replica :=
  Replica.receiveAll ∅ (resp.kvs.map fun kv => { type := .put, kv, prevKv := [] })

/-- The events that a client has been sent for a watcher. -/
def messagesFor (watchId : Int64) (out : List Message) : List EventMessage :=
  (out.filter (·.response.watchId = watchId)).flatMap Message.events

omit [Crates] in
theorem messagesFor_eq (watchId : Int64) (out : List Message) :
    messagesFor watchId out = (eventsFor watchId out).map eventToProto := by
  induction out with
  | nil => rfl
  | cons msg out ih =>
      have hone : messagesFor watchId [msg] = (eventsFor watchId [msg]).map eventToProto := by
        cases msg with
        | event id e =>
            by_cases hid : id = watchId <;>
              simp [messagesFor, eventsFor, Message.eventFor, Message.response, emptyResponse,
                Message.events, hid]
        | reply resp =>
            by_cases hid : resp.watchId = watchId <;>
              simp [messagesFor, eventsFor, Message.eventFor, Message.response, Message.events, hid]
        | canceled id rev | tick id rev =>
            by_cases hid : id = watchId <;>
              simp [messagesFor, eventsFor, Message.eventFor, Message.response, emptyResponse,
                Message.events, hid]
        | progress rev =>
            by_cases hid : -1 = watchId <;>
              simp [messagesFor, eventsFor, Message.eventFor, Message.response,
                makeProgressResponse, emptyResponse, Message.events, hid]
      have hcons : messagesFor watchId (msg :: out)
          = messagesFor watchId [msg] ++ messagesFor watchId out := by
        rw [messagesFor, messagesFor, messagesFor, ← List.flatMap_append, ← List.filter_append]
        rfl
      rw [hcons, hone, ih, ← List.map_append, ← eventsFor_append]
      rfl

/-- The last event of a key decides. -/
theorem getElem?_receiveAll (r : Replica) (ms : List EventMessage) (key : Bytes) :
    (r.receiveAll ms)[key]?
      = lastFrom EventMessage.key? EventMessage.value r[key]? ms (some key) := by
  induction ms generalizing r with
  | nil => rfl
  | cons m ms ih =>
      rw [Replica.receiveAll, List.foldl_cons, ← Replica.receiveAll, ih, KeyedLog.lastFrom_cons]
      refine congrArg (lastFrom _ _ · ms _) ?_
      unfold Replica.receive
      cases hkey : m.key? with
      | none => rfl
      | some k =>
          cases hval : m.value with
          | none => rw [ExtTreeMap.getElem?_erase]; simp
          | some kv => rw [ExtTreeMap.getElem?_insert]; simp

/-! ### Events that name their keys -/

/-- The blob of the event tells its key. -/
def WatchEvent.Named (e : WatchEvent) : Prop := blobKey e.kvBytes = some e.key

/-- The blob of the record tells its key, deletions included. -/
def KvWalRecord.Exact (rec : KvWalRecord) : Prop :=
  ∃ key, rec.key = some key ∧ Encodes key rec.kvBytes

omit [Crates] in
theorem WatchEvent.value_eventToProto (e : WatchEvent) :
    (eventToProto e).value = e.change.blob := by
  unfold eventToProto EventMessage.value WatchEvent.change
  cases e.eventType <;> rfl

/-- A client that is sent named events makes the changes that they tell of. -/
theorem getElem?_receive_events (r : Replica) {events : List WatchEvent}
    (h : ∀ e ∈ events, e.Named) (key : Bytes) :
    (r.receiveAll (events.map eventToProto))[key]?
      = lastFrom Change.key Change.blob r[key]? (events.map WatchEvent.change) key := by
  rw [getElem?_receiveAll, lastFrom, lastFrom, List.foldl_map, List.foldl_map]
  show lastFrom (fun e => (eventToProto e).key?) (fun e => (eventToProto e).value) _ events _
    = lastFrom (fun e => e.change.key) (fun e => e.change.blob) _ events _
  refine KeyedLog.lastFrom_congr ?_ _
  intro e he
  have hname : (eventToProto e).key? = some e.key := h e he
  rw [hname, Option.some.injEq]
  exact ⟨Iff.rfl, e.value_eventToProto⟩

theorem named_recordEvent [LawfulCrates] {rec : KvWalRecord} (h : rec.Exact) {key : Bytes}
    (hkey : rec.key = some key) (prev : Option Bytes) : (recordEvent rec key prev).Named := by
  obtain ⟨k, hk, hencodes⟩ := h
  obtain rfl : k = key := Option.some.inj (hk.symm.trans hkey)
  exact hencodes.blobKey

/-- What a replay sends is named, if the records are exact. -/
theorem named_sentAll [LawfulCrates] {inPhase : UInt64 → Bool}
    {wants : WatchContext → UInt64 → Bool} {ctx : WatchContext} {recs : List KvWalRecord}
    (h : ∀ rec ∈ recs, rec.Exact) (blobs : ExtTreeMap Bytes Bytes) :
    ∀ e ∈ sentAll inPhase wants ctx blobs recs, e.Named := by
  induction recs generalizing blobs with
  | nil => nofun
  | cons rec recs ih =>
      intro e he
      rcases List.mem_append.mp he with he | he
      · unfold sentFor at he
        split at he
        · cases he
        split at he
        · cases he
        · next key hkey =>
            split at he
            · rw [List.mem_singleton.mp he]
              exact named_recordEvent (h rec List.mem_cons_self) hkey _
            · cases he
      · exact ih (fun r hr => h r (List.mem_cons_of_mem _ hr)) _ e he

section

variable [LawfulCrates]

theorem Write.exact_record {w : Write} (hfit : w.record.Fits) : w.record.Exact := by
  refine ⟨w.key, (Write.record_spec hfit).2.1, ?_⟩
  cases w with
  | put key value lease rev prev => exact encodes_new hfit
  | delete key rev prev => exact encodes_new hfit

theorem exact_snapshotRecord {key : Bytes} {ks : KeyState} (hfit : (snapshotRecord key ks).Fits) :
    (snapshotRecord key ks).Exact :=
  ⟨key, (KvWalRecord.Fits.new_spec hfit).2.1, encodes_new hfit⟩

/-- The event of a write is named: a deletion patches the blob of its key. -/
theorem Write.named_event {K : Keyspace} {w : Write} (hK : Blobs K) (hw : K.Accepts w)
    (hfit : w.record.Fits) : w.event.Named := by
  cases w with
  | put key value lease rev prev => exact Encodes.blobKey (encodes_new hfit)
  | delete key rev prev =>
      obtain ⟨hkey, d, hname, hvalue, hblob⟩ := hK key prev (aliveIn_eq_some.mp hw.1).1
      rw [← hname] at hkey
      have hpatch : (withModRevision prev.kvBytes rev).getD []
          = { d with modRevision := rev.toInt64 }.encode := by
        rw [hblob, KeyValue.encode, withModRevision_encodeKv rev hkey]
        rfl
      have hencodes : Encodes key ((withModRevision prev.kvBytes rev).getD []) :=
        ⟨hname ▸ hkey, { d with modRevision := rev.toInt64 }, hname, hvalue, hpatch⟩
      exact hencodes.blobKey

theorem named_events {K K' : Keyspace} {ws : List Write} (hK : Blobs K)
    (hrun : Keyspace.Run K ws K') (hfit : ∀ w ∈ ws, w.record.Fits) :
    ∀ e ∈ ws.map Write.event, e.Named := by
  induction hrun with
  | nil => nofun
  | @cons K K' w ws hw _ ih =>
      have hfirst := hfit w List.mem_cons_self
      intro e he
      rcases List.mem_cons.mp he with rfl | he
      · exact Write.named_event hK hw hfirst
      · exact ih (hK.apply hw hfirst) (fun v hv => hfit v (List.mem_cons_of_mem _ hv)) e he

omit [LawfulCrates] in
/-- Live notification sends named events. -/
theorem named_notifyWrites {ws : List Write} (h : ∀ e ∈ ws.map Write.event, e.Named)
    {reg : WatchRegistration} (hreg : ∀ e ∈ reg.sender, e.Named) :
    ∀ e ∈ (notifyWrites ws reg).sender, e.Named := by
  rw [notifyWrites_spec]
  intro e he
  rcases List.mem_append.mp he with he | he
  · exact hreg e he
  · obtain ⟨e₀, he₀, rfl⟩ := List.mem_map.mp he
    have hnamed := h e₀ (List.mem_filter.mp he₀).1
    unfold WatchRegistration.strip
    split
    · exact hnamed
    · exact hnamed

end

/-! ### What a copy shows -/

/-- The blob of a key of a range. -/
def StoreState.view (s : StoreState) (bound : RangeBound) (key : Bytes) : Option Bytes :=
  if matchesRange bound key then (s.alive? key).map (·.kvBytes) else none

/-- The copy has the blobs of the range as they are in the state. -/
def Replica.Shows (r : Replica) (bound : RangeBound) (s : StoreState) : Prop :=
  ∀ key : Bytes, r[key]? = s.view bound key

section

variable [LawfulCrates]

/-- What writes do to the blobs of alive keys is what their records tell. -/
theorem kvBytes_run {K K' : Keyspace} {ws : List Write} (hrun : Keyspace.Run K ws K')
    (hfit : ∀ w ∈ ws, w.record.Fits) (hpos : ∀ w ∈ ws, w.rev ≠ 0) (key : Bytes) :
    (aliveIn K'.keys key).map (·.kvBytes)
      = lastFrom Change.key Change.blob ((aliveIn K.keys key).map (·.kvBytes))
          ((ws.map Write.record).filterMap KvWalRecord.change?) key := by
  induction hrun with
  | nil => rfl
  | @cons K K' w ws hw _ ih =>
      obtain ⟨-, hkey, hrev⟩ := Write.record_spec (hfit w List.mem_cons_self)
      have hchange : w.record.change? = some { revision := w.record.revision, key := w.key, blob :=
          if w.record.deleted then none else some w.record.kvBytes } := by
        rw [KvWalRecord.change?, hkey]
        rfl
      rw [ih (fun v hv => hfit v (List.mem_cons_of_mem _ hv))
        (fun v hv => hpos v (List.mem_cons_of_mem _ hv)), List.map_cons,
        List.filterMap_cons_some hchange, KeyedLog.lastFrom_cons,
        kvBytes_apply hw (hpos w List.mem_cons_self)]

/-- **A copy keeps up**: given the events of all writes to its range, it goes on showing it. -/
theorem Replica.Shows.run {r : Replica} {bound : RangeBound} {s s' : StoreState}
    (h : r.Shows bound s) {ws : List Write} (hrun : Keyspace.Run s.keyspace ws s'.keyspace)
    (hfit : ∀ w ∈ ws, w.record.Fits) (hpos : ∀ w ∈ ws, w.rev ≠ 0) {events : List WatchEvent}
    (hnamed : ∀ e ∈ events, e.Named)
    (hevents : events.map WatchEvent.change = changesFor bound [] (ws.map Write.record)) :
    (r.receiveAll (events.map eventToProto)).Shows bound s' := by
  intro key
  have hwanted : ∀ c : Change, c.wanted bound [] = matchesRange bound c.key := by
    intro c
    rw [Change.wanted, show StoreState.passesFilters [] c.eventType = true from rfl,
      Bool.and_true]
  have hfilter : changesFor bound [] (ws.map Write.record)
      = ((ws.map Write.record).filterMap KvWalRecord.change?).filter
          fun c => matchesRange bound c.key :=
    List.filter_congr fun c _ => hwanted c
  rw [getElem?_receive_events r hnamed, hevents, hfilter, KeyedLog.lastFrom_filter, h key,
    StoreState.view, StoreState.view]
  split
  · exact (kvBytes_run hrun hfit hpos key).symm
  · rfl

omit [LawfulCrates] in
/-- Every blob of a list is the one of its key. -/
theorem getElem?_replica (resp : RangeResponse) (key : Bytes) :
    resp.replica[key]? = KeyedLog.last blobKey some resp.kvs (some key) := by
  rw [RangeResponse.replica, getElem?_receiveAll, lastFrom, List.foldl_map,
    ExtTreeMap.getElem?_empty]
  rfl

end

/-- A request for all that there is in a range, in any order. -/
structure RangeRequest.Lists (req : RangeRequest) : Prop where
  revision : req.revision ≤ 0
  limit : req.limit ≤ 0
  countOnly : req.countOnly = false
  keysOnly : req.keysOnly = false
  unfiltered : req.minModRevision ≤ 0 ∧ req.maxModRevision ≤ 0 ∧ req.minCreateRevision ≤ 0 ∧
    req.maxCreateRevision ≤ 0

omit [Crates] in
theorem RangeRequest.Lists.passes {req : RangeRequest} (h : req.Lists) (ks : KeyState) :
    passesRevisionFilters req ks = true := by
  obtain ⟨hminMod, hmaxMod, hminCreate, hmaxCreate⟩ := h.unfiltered
  simp [passesRevisionFilters, hminMod, hmaxMod, hminCreate, hmaxCreate]

/-- The blobs of its response. -/
theorem RangeRequest.Lists.kvs_perm {req : RangeRequest} (h : req.Lists) {s : StoreState}
    (hsize : s.keys.size ≤ 2 ^ 32) {resp : RangeResponse} (hresp : range s req = .ok resp) :
    resp.header = s.header ∧ resp.kvs.Perm ((s.currentPairs req).map (·.2)) := by
  have hpage := currentPairs_of_range h.revision hresp
  have hlen : (s.currentPairs req).length ≤ 2 ^ 32 := by
    rw [StoreState.currentPairs, pickCurrent, List.length_map]
    refine Nat.le_trans ((List.length_filter_le _ _).trans (List.length_filter_le _ _)) ?_
    rwa [ExtTreeMap.length_toList]
  have hunlimited : req.pageLimit = 0 := if_neg (Int64.not_lt.mpr h.limit)
  have hblobs : (s.currentPairs req).map (fun e => responseKv req e.1 e.2)
      = (s.currentPairs req).map (·.2) := by
    refine List.map_congr_left fun e _ => ?_
    rw [responseKv, h.keysOnly]
    rfl
  have hkvs := kvs_page h.countOnly s.header (Nat.lt_of_le_of_lt hlen (by decide))
  rw [hunlimited, truncated, if_pos rfl, hblobs, ← hpage] at hkvs
  refine ⟨?_, ?_⟩
  · rw [hpage, page, if_neg (by rw [h.countOnly]; exact Bool.false_ne_true)]
  · rw [hkvs]
    exact sortKvs_perm (by rwa [List.length_map]) _ _ (.inl rfl)

variable [LawfulCrates]

/-- **A list shows the state it was made in.** The pairs of the response are those of the range,
each under the key in its blob, whatever order they come in. -/
theorem RangeRequest.Lists.shows {req : RangeRequest} (h : req.Lists) {s : StoreState}
    (hblobs : Blobs s.keyspace) (hsize : s.keys.size ≤ 2 ^ 32) {resp : RangeResponse}
    (hresp : range s req = .ok resp) :
    resp.replica.Shows (resolveRange req.key req.rangeEnd) s := by
  have hperm := (h.kvs_perm hsize hresp).2
  have hname : ∀ e ∈ s.currentPairs req, blobKey e.2 = some e.1 := by
    intro e he
    obtain ⟨-, ks, hks, -, hblob⟩ := mem_currentPairs.mp he
    rw [hblob]
    exact (hblobs e.1 ks (aliveIn_eq_some.mp hks).1).blobKey
  intro key
  rw [getElem?_replica]
  by_cases hview : ∃ b, s.view (resolveRange req.key req.rangeEnd) key = some b
  · -- a key of the view is listed once, and with its current pair
    obtain ⟨b, hb⟩ := hview
    rw [hb]
    unfold StoreState.view at hb
    split at hb
    · next hmatch =>
        obtain ⟨ks, hks, hblob⟩ := Option.map_eq_some_iff.mp hb
        have hmem : (key, b) ∈ s.currentPairs req :=
          mem_currentPairs.mpr ⟨hmatch, ks, hks, h.passes ks, hblob.symm⟩
        have hkeys : (resp.kvs.map blobKey).Nodup := by
          have hpairs : (resp.kvs.map blobKey).Perm
              (((s.currentPairs req).map (·.1)).map some) := by
            refine (hperm.map blobKey).trans (.of_eq ?_)
            rw [List.map_map, List.map_map]
            exact List.map_congr_left fun e he => hname e he
          refine hpairs.nodup_iff.mpr (List.Nodup.map (Option.some_injective _) ?_)
          exact (List.pairwise_map.mpr (ascending_currentPairs s req)).imp fun hlt heq => by
            rw [heq, KeyLt, bytesLt_irrefl] at hlt
            cases hlt
        have hlast : KeyedLog.last blobKey some resp.kvs (blobKey b) = some b :=
          KeyedLog.last_of_mem hkeys (fun _ _ => rfl) (hperm.mem_iff.mpr (List.mem_map_of_mem hmem))
        rw [hname _ hmem] at hlast
        exact hlast
    · cases hb
  · rw [Option.eq_none_iff_forall_not_mem.mpr fun b hb => hview ⟨b, hb⟩]
    -- and nothing is listed that the view does not have
    refine KeyedLog.lastFrom_of_forall_ne ?_
    intro kv hkv heq
    obtain ⟨e, he, rfl⟩ := List.mem_map.mp (hperm.mem_iff.mp hkv)
    obtain ⟨hmatch, ks, hks, -, -⟩ := mem_currentPairs.mp he
    rw [hname e he, Option.some.injEq] at heq
    subst heq
    exact hview ⟨ks.kvBytes, by rw [StoreState.view, if_pos hmatch, hks]; rfl⟩

end

end Rudurru
