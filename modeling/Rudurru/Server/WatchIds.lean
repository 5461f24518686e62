import Rudurru.Server.Isolation

/-!
# Rudurru.Server.WatchIds

Where watch ids come from, and when a create is refused for its id.

A client may name the id of its watch, and expects it to be refused only if a watch of the same
stream has it. The server compares it with the watchers of all streams and with the other creates of
the batch, and so it does with the ids that it chose itself from a counter. It is right exactly
while ids do not cross streams (`duplicates_clash_iff`).

Two facts carry the argument. Screening leaves a batch of distinct ids that no registered watcher
has (`nodup_screened`), so every id is in use once at any time (`nodup_ids_step`). And every create
in the server was asked for on some stream, with the id that the client named or the next one of the
counter (`Hub.Requested`). A refusal therefore comes from a watcher or a create that can be named,
and it is a clash on the stream of the create exactly if that one is of the same stream
(`Hub.Ided.clashes_iff`).
-/

namespace Rudurru

/-! ### What is left of a batch

Screening compares the ids of a batch with the registered watchers and with those before them in the
batch.
-/

theorem mem_duplicateIds {s : StoreState} {active : List WatchContext} {i : Nat} :
    i ∈ duplicateIds s active ↔ ∃ ctx, active[i]? = some ctx ∧
      ((∃ w ∈ s.watchers, w.watchId = ctx.watchId) ∨
        ∃ other ∈ active.take i, other.watchId = ctx.watchId) := by
  rw [duplicateIds, List.mem_filter, List.mem_range]
  constructor
  · intro h
    obtain ⟨hi, htaken⟩ := h
    rw [List.getElem?_eq_getElem hi] at htaken
    refine ⟨active[i], List.getElem?_eq_getElem hi, ?_⟩
    simpa using htaken
  · intro h
    obtain ⟨ctx, hctx, htaken⟩ := h
    refine ⟨(List.getElem?_eq_some_iff.mp hctx).1, ?_⟩
    rw [hctx]
    simpa using htaken

/-- The positions whose watch ids are not taken. -/
def freeIds (s : StoreState) (active : List WatchContext) : List Nat :=
  (List.range active.length).filter (· ∉ duplicateIds s active)

theorem filterMap_getElem?_range {α : Type} (l : List α) :
    (List.range l.length).filterMap (l[·]?) = l := by
  induction l with
  | nil => rfl
  | cons a l ih =>
      rw [List.length_cons, List.range_succ_eq_map,
        List.filterMap_cons_some List.getElem?_cons_zero, List.filterMap_map]
      exact congrArg (a :: ·) ih

theorem duplicateIds_append_freeIds (s : StoreState) (active : List WatchContext) :
    (duplicateIds s active ++ freeIds s active).Perm (List.range active.length) := by
  have htaken : (List.range active.length).filter (· ∈ duplicateIds s active)
      = duplicateIds s active := by
    conv_rhs => rw [duplicateIds]
    refine List.filter_congr fun i hi => Bool.eq_iff_iff.mpr ?_
    rw [decide_eq_true_iff, duplicateIds, List.mem_filter]
    exact and_iff_right hi
  have hperm := List.filter_append_perm (fun i => decide (i ∈ duplicateIds s active))
    (List.range active.length)
  rw [htaken] at hperm
  simpa [freeIds] using hperm

/-- What screening keeps, up to the order. -/
theorem screened_perm (s : StoreState) (active : List WatchContext) :
    (screenDuplicates s active).active.Perm ((freeIds s active).filterMap (active[·]?)) := by
  have hkept := rejected_append_screened s active
  have hall := (duplicateIds_append_freeIds s active).filterMap (active[·]?)
  rw [filterMap_getElem?_range, List.filterMap_append] at hall
  have hsame := (List.reverse_perm (duplicateIds s active)).filterMap (active[·]?)
  exact (List.perm_append_left_iff _).mp
    ((hkept.trans hall.symm).trans (hsame.symm.append_right _))

/-- **Screening leaves distinct ids**, that no registered watcher has. A create stays in the batch
if no watcher and no create before it has its id. -/
theorem nodup_screened {s : StoreState} (hs : (s.watchers.map (·.watchId)).Nodup)
    (active : List WatchContext) :
    (s.watchers.map (·.watchId)
      ++ (screenDuplicates s active).active.map (·.watchId)).Nodup := by
  have hfree : ∀ i ∈ freeIds s active, i ∉ duplicateIds s active := by
    intro i hi
    exact of_decide_eq_true (List.mem_filter.mp hi).2
  refine ((((screened_perm s active).map _).append_left _).nodup_iff).mpr ?_
  refine List.nodup_append.mpr ⟨hs, ?_, ?_⟩
  · rw [List.map_filterMap, List.Nodup, List.pairwise_filterMap]
    have hlt : (freeIds s active).Pairwise (· < ·) :=
      List.pairwise_lt_range.sublist List.filter_sublist
    refine hlt.imp_of_mem ?_
    intro i j hi hj hij a ha b hb heq
    obtain ⟨ctx, hctx, rfl⟩ := Option.map_eq_some_iff.mp ha
    obtain ⟨other, hother, rfl⟩ := Option.map_eq_some_iff.mp hb
    refine hfree j hj (mem_duplicateIds.mpr ⟨other, hother, .inr ⟨ctx, ?_, heq⟩⟩)
    refine List.mem_of_getElem? (i := i) ?_
    rw [List.getElem?_take_of_lt hij, hctx]
  · intro a ha b hb heq
    obtain ⟨w, hw, rfl⟩ := List.mem_map.mp ha
    obtain ⟨ctx, hctx, rfl⟩ := List.mem_map.mp hb
    obtain ⟨i, hi, hget⟩ := List.mem_filterMap.mp hctx
    exact hfree i hi (mem_duplicateIds.mpr ⟨ctx, hget, .inl ⟨w, hw, heq⟩⟩)

/-! ### The ids of watchers -/

/-- The ids that have been screened and are not registered yet. -/
def FlushStage.screened : FlushStage → List Int64
  | .opening active | .scanning _ _ active => active.map (·.watchId)
  | .catchingUp st => st.active.map (·.watchId)
  | .drained _ | .admitting _ _ _ | .replying _ => []

/-- The watch ids that are in use, or will be. -/
def Handoff.ids (h : Handoff) : List Int64 :=
  h.sys.store.watchers.map (·.watchId) ++ h.flush.elim [] fun f => f.stage.screened

theorem screened_swap (f : FlushRun) (contents : Bytes) :
    (f.swap contents).stage.screened = f.stage.screened := by
  unfold FlushRun.swap
  cases hstage : f.stage with
  | scanning opened orphan active => cases orphan <;> rfl
  | drained _ | admitting _ _ _ | opening _ | catchingUp _ | replying _ => rfl

theorem ids_of_flush {h : Handoff} {f : FlushRun} (hf : h.flush = some f) :
    h.ids = h.sys.store.watchers.map (·.watchId) ++ f.stage.screened := by
  rw [Handoff.ids, hf]
  rfl

section

variable [Crates]

/-- Live notification leaves the watch ids alone. -/
theorem watchIds_published {s s' : StoreState} {ws : List Write} (hpub : Published s ws s') :
    s'.watchers.map (·.watchId) = s.watchers.map (·.watchId) := by
  rw [hpub.watchers, List.map_map]
  refine List.map_congr_left fun w _ => ?_
  obtain ⟨sent, hsent, -⟩ := notifyWrites_eq hpub.rev_eq w
  show (notifyWrites ws w).watchId = w.watchId
  rw [hsent]

theorem watchId_flushPhase1 (file : Bytes) (rev : UInt64) (active : List WatchContext) :
    (flushPhase1 file rev active).active.map (·.watchId) = active.map (·.watchId) := by
  have h := congrArg (List.map Prod.snd) (entry_flushPhase1 file rev active)
  rw [List.map_map, List.map_map] at h
  exact h

theorem watchId_flushPhase2 (file : Bytes) (rev : UInt64) (offset : Nat) (st : ReplayState) :
    (flushPhase2 file rev offset st).active.map (·.watchId) = st.active.map (·.watchId) := by
  have h := congrArg (List.map Prod.snd) (entry_flushPhase2 file rev offset st)
  rw [List.map_map, List.map_map] at h
  exact h

/-- **Every id is in use once.** Screening brings ids in, and phase 2 registers what was screened.
-/
theorem nodup_ids_step {h h' : Handoff} {ev : HandoffEvent} (hs : h.sys.store.wal.faults = [])
    (hids : h.ids.Nodup) (hstep : h.step ev = some h') : h'.ids.Nodup := by
  have hwatchers : (h.sys.store.watchers.map (·.watchId)).Nodup := (List.nodup_append.mp hids).1
  -- a flush that has screened nothing
  have hstart : (List.map WatchRegistration.watchId h.sys.store.watchers ++ []).Nodup := by
    rw [List.append_nil]
    exact hwatchers
  cases Handoff.moves_of_step hs hstep with
  | request hq hpub =>
      rw [Handoff.ids, watchIds_published hpub]
      exact hids
  | cancelWatch => exact hids.sublist ((List.filter_sublist.map _).append (List.Sublist.refl _))
  | compactA | compactB | compactFails | create => exact hids
  | compactC =>
      cases hf : h.flush with
      | none =>
          rw [Handoff.ids, hf] at hids
          exact hids
      | some f =>
          rw [ids_of_flush hf, ← screened_swap f h.sys.store.wal.contents] at hids
          exact hids
  | restart hopen =>
      obtain ⟨_, _, _, _, _, rfl⟩ := openStore_eq_ok hopen
      exact List.nodup_nil
  | checkpoint | compactRev | refuse | admission => exact hstart
  | screen hf hstage =>
      rw [Handoff.ids]
      dsimp only
      split
      · exact hstart
      · exact nodup_screened hwatchers _
  | openWal hf hstage =>
      rw [ids_of_flush hf, hstage] at hids
      exact hids
  | phase1 hf hstage =>
      rw [ids_of_flush hf, hstage] at hids
      show (_ ++ (flushPhase1 _ _ _).active.map _).Nodup
      rw [watchId_flushPhase1]
      exact hids
  | @phase2 f st hf hstage =>
      rw [ids_of_flush hf, hstage] at hids
      have hsame := watchId_flushPhase2 h.sys.store.wal.contents f.checkpointRev
        f.checkpointOffset st
      generalize (flushPhase2 h.sys.store.wal.contents f.checkpointRev f.checkpointOffset
        st).active = active at hsame ⊢
      have hwatchers := watchers_registerAll active h.sys.store
      refine (congrArg List.Nodup ?_).mpr hids
      rw [Handoff.ids]
      dsimp only [Option.elim, FlushStage.screened]
      rw [hwatchers, List.append_nil, List.map_append, List.map_map]
      exact congrArg _ hsame
  | reply hf hstage =>
      rw [Handoff.ids]
      dsimp only
      split <;> exact hstart

/-! ### Who asked for what

An id is the client's own or the server's choice. To tell whether a refusal was right one has to
know which, and on which stream.
-/

/-- The create requests, with the streams they came on; the position names the create. -/
def createRequests (evs : List HubEvent) : List (Nat × WatchCreateRequest) :=
  evs.filterMap fun
    | .createRequest i req => some (i, req)
    | _ => none

omit [Crates] in
theorem creates_setStream {hub : Hub} {i : Nat} {s : Stream}
    (hs : s.creates = (hub.streams i).creates) (k : Nat) :
    ((hub.setStream i s).streams k).creates = (hub.streams k).creates := by
  by_cases hk : k = i
  · subst hk
    rw [hub.streams_setStream_self, hs]
  · rw [hub.streams_setStream_of_ne hk]

/-- The requests account for the creates of every stream, and for the ids that clients named. The
list of requests is not part of the server. It is the list of all creates that were read, with their
streams, in the order of their numbers. -/
structure Hub.Requested (reqs : List (Nat × WatchCreateRequest)) (hub : Hub) : Prop where
  length : hub.handoff.issued.length = reqs.length
  creates : ∀ i n : Nat, n ∈ (hub.streams i).creates ↔ ∃ req, reqs[n]? = some (i, req)
  named : ∀ (n i : Nat) (req : WatchCreateRequest), reqs[n]? = some (i, req) → req.watchId ≠ 0 →
    hub.handoff.issued[n]? = some req.watchId

omit [Crates] in
theorem Hub.Requested.frame {reqs : List (Nat × WatchCreateRequest)} {hub hub' : Hub}
    (h : hub.Requested reqs) (hissued : hub'.handoff.issued = hub.handoff.issued)
    (hcreates : ∀ k, (hub'.streams k).creates = (hub.streams k).creates) :
    hub'.Requested reqs where
  length := hissued ▸ h.length
  creates := fun i n => hcreates i ▸ h.creates i n
  named := fun n i req hreq hne => hissued ▸ h.named n i req hreq hne

omit [Crates] in
theorem getElem?_concat_eq_some {α : Type} {l : List α} {a b : α} {n : Nat} :
    (l ++ [a])[n]? = some b ↔ l[n]? = some b ∨ (n = l.length ∧ b = a) := by
  rcases Nat.lt_or_ge n l.length with hn | hn
  · rw [List.getElem?_append_left hn]
    exact (or_iff_left fun h => absurd h.1 (Nat.ne_of_lt hn)).symm
  · rw [List.getElem?_append_right hn, List.getElem?_eq_none hn, List.getElem?_singleton]
    constructor
    · intro h
      split at h
      · next hzero => exact .inr ⟨by omega, (Option.some.inj h).symm⟩
      · cases h
    · intro h
      obtain ⟨hlen, rfl⟩ := h.resolve_left (by simp)
      rw [if_pos (by omega)]

omit [Crates] in
/-- A create is read from a stream. -/
theorem Hub.Requested.create {reqs : List (Nat × WatchCreateRequest)} {hub hub' : Hub}
    (h : hub.Requested reqs) {i : Nat} {req : WatchCreateRequest}
    (hissued : hub'.handoff.issued = hub.handoff.issued ++ [hub.handoff.chooseId req])
    (hself : (hub'.streams i).creates = (hub.streams i).creates ++ [hub.handoff.issued.length])
    (hother : ∀ k, k ≠ i → (hub'.streams k).creates = (hub.streams k).creates) :
    hub'.Requested (reqs ++ [(i, req)]) where
  length := by rw [hissued, List.length_append, List.length_append, h.length]; rfl
  creates := by
    intro k n
    simp only [getElem?_concat_eq_some, Prod.mk.injEq, exists_or]
    by_cases hk : k = i
    · subst hk
      rw [hself, List.mem_append, h.creates k n, List.mem_singleton, h.length]
      simp
    · rw [hother k hk, h.creates k n]
      simp [hk]
  named := by
    intro n k req' hreq hne
    rw [hissued]
    rcases getElem?_concat_eq_some.mp hreq with hold | ⟨rfl, heq⟩
    · exact getElem?_concat_eq_some.mpr (.inl (h.named n k req' hold hne))
    · cases heq
      exact getElem?_concat_eq_some.mpr (.inr ⟨h.length.symm, (if_pos hne).symm⟩)

theorem issued_of_step {h h' : Handoff} {ev : HandoffEvent} (hs : h.sys.store.wal.faults = [])
    (hcreate : ∀ req, ev ≠ .create req) (hrestart : ∀ now, ev ≠ .server (.restart now))
    (hstep : h.step ev = some h') : h'.issued = h.issued := by
  cases Handoff.moves_of_step hs hstep with
  | create => exact absurd rfl (hcreate _)
  | restart => exact absurd rfl (hrestart _)
  | _ => rfl

theorem Hub.Requested.step {reqs : List (Nat × WatchCreateRequest)} {hub hub' : Hub}
    {ev : HubEvent} (h : hub.Requested reqs) (hw : hub.Wired) (hstep : hub.step ev = some hub') :
    hub'.Requested (reqs ++ createRequests [ev]) := by
  cases Hub.moves_of_step hstep with
  | @handoff ev h' hbeside hh' =>
      rw [show createRequests [HubEvent.handoff ev] = [] from rfl, List.append_nil]
      refine h.frame (issued_of_step hw.faults ?_ (besideStreams_ne_restart hbeside) hh')
        fun k => rfl
      intro req heq
      rw [heq] at hbeside
      cases hbeside
  | @createRequest i req hloop =>
      refine h.create rfl ?_ ?_
      · rw [Hub.streams_setStream_self]
      · intro k hk
        rw [Hub.streams_setStream_of_ne _ hk]
        rfl
  | @cancelRequest i watchId h' hloop hh' =>
      rw [show createRequests [HubEvent.cancelRequest i watchId] = [] from rfl, List.append_nil]
      exact h.frame (issued_of_step hw.faults (by simp) (by simp) hh') (creates_setStream rfl)
  | @drop i j f h' hf hh' =>
      rw [show createRequests [HubEvent.drop i j] = [] from rfl, List.append_nil]
      exact h.frame (issued_of_step hw.faults (by simp) (by simp) hh') (creates_setStream rfl)
  | @stream i ev s' hmoves =>
      rw [show createRequests [HubEvent.stream i ev] = [] from rfl, List.append_nil]
      refine h.frame rfl (creates_setStream ?_)
      cases hmoves <;> rfl

/-- Ids stay in use once. -/
theorem Hub.nodup_ids_step {hub hub' : Hub} {ev : HubEvent} (hw : hub.Wired)
    (hids : hub.handoff.ids.Nodup) (hstep : hub.step ev = some hub') :
    hub'.handoff.ids.Nodup := by
  cases Hub.moves_of_step hstep with
  | handoff _ hh' => exact Rudurru.nodup_ids_step hw.faults hids hh'
  | createRequest => exact hids
  | cancelRequest _ hh' => exact Rudurru.nodup_ids_step hw.faults hids hh'
  | drop _ hh' => exact Rudurru.nodup_ids_step hw.faults hids hh'
  | stream => exact hids

omit [Crates] in
theorem createRequests_append (evs evs' : List HubEvent) :
    createRequests (evs ++ evs') = createRequests evs ++ createRequests evs' :=
  List.filterMap_append

/-- What is known of ids in every state. -/
structure Hub.Ided (reqs : List (Nat × WatchCreateRequest)) (hub : Hub) : Prop where
  wired : hub.Wired
  requested : hub.Requested reqs
  once : hub.handoff.ids.Nodup

theorem Hub.Ided.run {reqs : List (Nat × WatchCreateRequest)} {hub hub' : Hub}
    {evs : List HubEvent} (h : hub.Ided reqs) (hrun : hub.run evs = some hub') :
    hub'.Ided (reqs ++ createRequests evs) := by
  induction evs generalizing hub reqs with
  | nil =>
      cases hrun
      rw [show createRequests [] = [] from rfl, List.append_nil]
      exact h
  | cons ev evs ih =>
      rw [Hub.run, Trace.run_cons, Option.bind_eq_some_iff] at hrun
      obtain ⟨hub₁, hstep, hrun⟩ := hrun
      have h₁ : hub₁.Ided (reqs ++ createRequests [ev]) :=
        ⟨h.wired.step hstep, h.requested.step h.wired hstep,
          Hub.nodup_ids_step h.wired h.once hstep⟩
      have hrest := ih h₁ hrun
      rw [List.append_assoc, ← createRequests_append] at hrest
      exact hrest

omit [Crates] in
theorem Hub.ided_start {sys : System} (hs : sys.store.wal.faults = [])
    (hw : sys.store.watchers = []) : (Hub.start sys).Ided [] where
  wired := Hub.wired_start hs hw
  requested := ⟨rfl, by simp [Hub.start], by simp⟩
  once := by simp [Hub.start, Handoff.ids, Handoff.start, hw]

/-! ### Refusals -/

/-- The creates that are about to be screened. -/
def Handoff.screening (h : Handoff) : List WatchContext :=
  match h.flush with
  | some { stage := .admitting _ [] active, .. } => active
  | _ => []

omit [Crates] in
theorem screening_of_flush {h : Handoff} {f : FlushRun} {rev : UInt64}
    {active : List WatchContext} (hf : h.flush = some f)
    (hstage : f.stage = .admitting rev [] active) : h.screening = active := by
  obtain ⟨checkpointRev, checkpointOffset, stage, position, swapped, scanned⟩ := f
  obtain rfl : stage = _ := hstage
  rw [Handoff.screening, hf]

/-- The replies that a step adds. -/
def Hub.news (hub hub' : Hub) : List (Nat × WatchResponse) :=
  hub'.handoff.replies.drop hub.handoff.replies.length

/-- The client of the create named its id, and a watcher of its stream has it. -/
def Hub.Clash (hub : Hub) (reqs : List (Nat × WatchCreateRequest)) (n : Nat) : Prop :=
  ∃ (i : Nat) (req : WatchCreateRequest), reqs[n]? = some (i, req) ∧ req.watchId ≠ 0 ∧
    ∃ p ∈ hub.watchersOf i, p.1.watchId = req.watchId

/-- Among the creates to be screened, ids are distinct, and one that a watcher has was named by the
client, on the stream of that watcher. -/
def Hub.IdsStay (hub : Hub) (reqs : List (Nat × WatchCreateRequest)) : HubEvent → Prop
  | .handoff .screen =>
      (hub.handoff.screening.map (·.watchId)).Nodup ∧
        ∀ ctx ∈ hub.handoff.screening, ∀ p ∈ hub.handoff.watched, p.1.watchId = ctx.watchId →
          ∃ (i : Nat) (req : WatchCreateRequest), reqs[ctx.reply]? = some (i, req) ∧
            req.watchId ≠ 0 ∧ p.2.create ∈ (hub.streams i).creates
  | _ => True

omit [Crates] in
theorem cancelReason_of_admitCreate {s : StoreState} {c : GlobalCreate} {resp : WatchResponse}
    (h : admitCreate s c = .error resp) : resp.cancelReason ≠ "duplicate watch_id" := by
  obtain rfl | rfl := admitCreate_eq_error h
  · simp [refusal]
  · intro heq
    have hchars := congrArg String.toList heq
    simp [refusal] at hchars

omit [Crates] in
theorem mem_screenDuplicates_replies {s : StoreState} {active : List WatchContext}
    {r : Nat × WatchResponse} :
    r ∈ (screenDuplicates s active).replies ↔ ∃ i ∈ duplicateIds s active, ∃ ctx,
      active[i]? = some ctx ∧
        r = (ctx.reply, refusal s.currentRevision 0 "duplicate watch_id") := by
  simp only [screenDuplicates, List.mem_filterMap, List.mem_reverse, Option.map_eq_some_iff]
  constructor
  · intro h
    obtain ⟨i, hi, ctx, hctx, rfl⟩ := h
    exact ⟨i, hi, ctx, hctx, rfl⟩
  · intro h
    obtain ⟨i, hi, ctx, hctx, rfl⟩ := h
    exact ⟨i, hi, ctx, hctx, rfl⟩

/-- Only the screen refuses a create for its id. -/
theorem replies_of_step {h h' : Handoff} {ev : HandoffEvent} (hs : h.sys.store.wal.faults = [])
    (hrestart : ∀ now, ev ≠ .server (.restart now)) (hstep : h.step ev = some h') :
    ∃ news, h'.replies = h.replies ++ news ∧
      ((ev = .screen ∧ news = (screenDuplicates h.sys.store h.screening).replies) ∨
        (ev ≠ .screen ∧ ∀ r ∈ news, r.2.cancelReason ≠ "duplicate watch_id")) := by
  cases Handoff.moves_of_step hs hstep with
  | restart => exact absurd rfl (hrestart _)
  | screen hf hstage =>
      refine ⟨_, rfl, .inl ⟨rfl, ?_⟩⟩
      rw [screening_of_flush hf hstage]
  | refuse hf hstage hresp =>
      refine ⟨_, rfl, .inr ⟨by simp, ?_⟩⟩
      intro r hr
      rw [List.mem_singleton.mp hr]
      exact cancelReason_of_admitCreate hresp
  | reply hf hstage =>
      refine ⟨_, rfl, .inr ⟨by simp, ?_⟩⟩
      intro r hr
      rw [List.mem_singleton.mp hr]
      simp [createdResponse]
  | _ => exact ⟨[], (List.append_nil _).symm, .inr ⟨by simp, by simp⟩⟩

section

variable {hub hub' : Hub} {reqs : List (Nat × WatchCreateRequest)}

omit [Crates] in
/-- Registered watchers are told apart by their ids. -/
theorem Hub.Ided.eq_of_watchId (h : hub.Ided reqs) {p p' : WatchRegistration × Origin}
    (hp : p ∈ hub.handoff.watched) (hp' : p' ∈ hub.handoff.watched)
    (hid : p.1.watchId = p'.1.watchId) : p = p' := by
  have hfst : hub.handoff.watched.map Prod.fst = hub.handoff.sys.store.watchers :=
    List.map_fst_zip (Nat.le_of_eq h.wired.tracked.length)
  have hnodup : (hub.handoff.watched.map (·.1.watchId)).Nodup := by
    have hwatchers := (List.nodup_append.mp h.once).1
    rw [← hfst, List.map_map] at hwatchers
    exact hwatchers
  exact List.inj_on_of_nodup_map hnodup hp hp' hid

omit [Crates] in
/-- Every create belongs to one stream. -/
theorem Hub.Ided.eq_of_creates (h : hub.Ided reqs) {i k n : Nat}
    (hi : n ∈ (hub.streams i).creates) (hk : n ∈ (hub.streams k).creates) : i = k := by
  obtain ⟨req, hreq⟩ := (h.requested.creates i n).mp hi
  obtain ⟨req', hreq'⟩ := (h.requested.creates k n).mp hk
  rw [hreq] at hreq'
  exact (Prod.mk.inj (Option.some.inj hreq')).1

omit [Crates] in
/-- A stream has one create under way at most. -/
theorem Hub.Ided.eq_of_coming (h : hub.Ided reqs) {i n m : Nat}
    (hn : n ∈ (hub.streams i).creates) (hm : m ∈ (hub.streams i).creates)
    (hn' : n ∈ hub.handoff.coming) (hm' : m ∈ hub.handoff.coming) : n = m := by
  have hwait : ∀ n ∈ (hub.streams i).creates, n ∈ hub.handoff.coming →
      ∃ watchId progressNotify, (hub.streams i).loop = .waiting n watchId progressNotify := by
    intro n hn hcoming
    rcases (h.wired.streams i).pending n hn with ⟨resp, hresp⟩ | hwait
    · exact absurd hcoming (h.wired.tracked.not_waiting_of_answered hresp)
    · exact hwait
  obtain ⟨_, _, hloop⟩ := hwait n hn hn'
  obtain ⟨_, _, hloop'⟩ := hwait m hm hm'
  rw [hloop] at hloop'
  cases hloop'
  rfl

omit [Crates] in
/-- The creates that are about to be screened wait, under the ids they were given. -/
theorem screening_sublist (h : Handoff) :
    (h.screening.map WatchContext.entry).Sublist h.waiting := by
  unfold Handoff.screening
  split
  · next hf =>
      rw [waiting_of_flush hf]
      exact (List.sublist_append_left _ _).trans (List.sublist_append_left _ _)
  · exact List.nil_sublist _

omit [Crates] in
theorem screening_coming {h : Handoff} {ctx : WatchContext} (hctx : ctx ∈ h.screening) :
    ctx.reply ∈ h.coming :=
  List.mem_map_of_mem (f := Prod.fst)
    ((screening_sublist h).subset (List.mem_map_of_mem (f := WatchContext.entry) hctx))

omit [Crates] in
/-- They are told apart by their numbers. -/
theorem nodup_screening {h : Handoff} (ht : Tracked h) : (h.screening.map (·.reply)).Nodup := by
  have hplaces := (List.nodup_append.mp (List.nodup_append.mp ht.nodup_places).2.1).2.1
  have hsub := (screening_sublist h).map Prod.fst
  rw [List.map_map] at hsub
  exact hplaces.sublist hsub

omit [Crates] in
theorem Hub.Ided.issued (h : hub.Ided reqs) {ctx : WatchContext}
    (hctx : ctx ∈ hub.handoff.screening) :
    hub.handoff.issued[ctx.reply]? = some ctx.watchId :=
  h.wired.tracked.ids ctx.entry
    (List.mem_append_right _ (List.mem_append_right _
      ((screening_sublist _).subset (List.mem_map_of_mem hctx))))

omit [Crates] in
/-- The client of a create that clashes named the create's id, and the watcher that has it is one
of its stream. -/
theorem Hub.Ided.clash_iff (h : hub.Ided reqs) {ctx : WatchContext}
    (hctx : ctx ∈ hub.handoff.screening) :
    hub.Clash reqs ctx.reply ↔ ∃ (i : Nat) (req : WatchCreateRequest),
      reqs[ctx.reply]? = some (i, req) ∧ req.watchId ≠ 0 ∧
        ∃ p ∈ hub.handoff.watched, p.1.watchId = ctx.watchId ∧
          p.2.create ∈ (hub.streams i).creates := by
  have hissued := h.issued hctx
  have hid : ∀ (i : Nat) (req : WatchCreateRequest), reqs[ctx.reply]? = some (i, req) →
      req.watchId ≠ 0 → req.watchId = ctx.watchId := by
    intro i req hreq hne
    rw [h.requested.named _ i req hreq hne] at hissued
    exact Option.some.inj hissued
  constructor
  · intro hclash
    obtain ⟨i, req, hreq, hne, p, hp, heq⟩ := hclash
    obtain ⟨hp, hstream⟩ := List.mem_filter.mp hp
    exact ⟨i, req, hreq, hne, p, hp, heq.trans (hid i req hreq hne), of_decide_eq_true hstream⟩
  · intro hclash
    obtain ⟨i, req, hreq, hne, p, hp, heq, hstream⟩ := hclash
    exact ⟨i, req, hreq, hne, p, List.mem_filter.mpr ⟨hp, decide_eq_true hstream⟩,
      heq.trans (hid i req hreq hne).symm⟩

omit [Crates] in
/-- A create is refused if its id is that of a watcher, or of an earlier create. -/
theorem Hub.Ided.refused_iff (h : hub.Ided reqs) {i : Nat} :
    i ∈ duplicateIds hub.handoff.sys.store hub.handoff.screening ↔
      ∃ ctx, hub.handoff.screening[i]? = some ctx ∧
        ((∃ p ∈ hub.handoff.watched, p.1.watchId = ctx.watchId) ∨
          ∃ other ∈ hub.handoff.screening.take i, other.watchId = ctx.watchId) := by
  have hfst : hub.handoff.watched.map Prod.fst = hub.handoff.sys.store.watchers :=
    List.map_fst_zip (Nat.le_of_eq h.wired.tracked.length)
  rw [mem_duplicateIds, ← hfst]
  refine exists_congr fun ctx => and_congr_right fun _ => or_congr ?_ Iff.rfl
  constructor
  · intro hex
    obtain ⟨w, hw, hid⟩ := hex
    obtain ⟨p, hp, rfl⟩ := List.mem_map.mp hw
    exact ⟨p, hp, hid⟩
  · intro hex
    obtain ⟨p, hp, hid⟩ := hex
    exact ⟨p.1, List.mem_map_of_mem hp, hid⟩

omit [Crates] in
/-- **Refusals are real clashes exactly while ids do not cross streams.** -/
theorem Hub.Ided.clashes_iff (h : hub.Ided reqs) :
    (∀ i ∈ duplicateIds hub.handoff.sys.store hub.handoff.screening, ∀ ctx,
      hub.handoff.screening[i]? = some ctx → hub.Clash reqs ctx.reply) ↔
      hub.IdsStay reqs (.handoff .screen) := by
  constructor
  · intro hclash
    have hstay : ∀ ctx ∈ hub.handoff.screening, ∀ p ∈ hub.handoff.watched,
        p.1.watchId = ctx.watchId → ∃ (i : Nat) (req : WatchCreateRequest),
          reqs[ctx.reply]? = some (i, req) ∧ req.watchId ≠ 0 ∧
            p.2.create ∈ (hub.streams i).creates := by
      intro ctx hctx p hp hid
      obtain ⟨i, hi⟩ := List.mem_iff_getElem?.mp hctx
      obtain ⟨k, req, hreq, hne, p', hp', hid', hstream⟩ := (h.clash_iff hctx).mp
        (hclash i (h.refused_iff.mpr ⟨ctx, hi, .inl ⟨p, hp, hid⟩⟩) ctx hi)
      obtain rfl := h.eq_of_watchId hp hp' (hid.trans hid'.symm)
      exact ⟨k, req, hreq, hne, hstream⟩
    refine ⟨?_, hstay⟩
    -- two creates with one id: the later one is refused, so a watcher has the id, and both creates
    -- belong to its stream
    refine List.pairwise_map.mpr (List.pairwise_iff_getElem.mpr ?_)
    intro i j hi hj hij hid
    have hmem := List.getElem_mem hi
    have hmem' := List.getElem_mem hj
    have hearlier : ∃ other ∈ hub.handoff.screening.take j,
        other.watchId = hub.handoff.screening[j].watchId := by
      refine ⟨hub.handoff.screening[i], List.mem_of_getElem? (i := i) ?_, hid⟩
      rw [List.getElem?_take_of_lt hij, List.getElem?_eq_getElem hi]
    have hrefused := h.refused_iff.mpr ⟨_, List.getElem?_eq_getElem hj, .inr hearlier⟩
    obtain ⟨k, req, hreq, -, p, hp, hpid, hstream⟩ := (h.clash_iff hmem').mp
      (hclash j hrefused _ (List.getElem?_eq_getElem hj))
    obtain ⟨k', req', hreq', -, hstream'⟩ := hstay _ hmem p hp (hpid.trans hid.symm)
    obtain rfl := h.eq_of_creates hstream hstream'
    have hsame := h.eq_of_coming ((h.requested.creates k _).mpr ⟨req', hreq'⟩)
      ((h.requested.creates k _).mpr ⟨req, hreq⟩) (screening_coming hmem) (screening_coming hmem')
    have hpair := List.pairwise_iff_getElem.mp
      (List.pairwise_map.mp (nodup_screening h.wired.tracked)) i j hi hj hij
    exact hpair hsame
  · intro hstay i hi ctx hctx
    obtain ⟨hnodup, hstay⟩ := hstay
    obtain ⟨ctx', hctx', htaken⟩ := h.refused_iff.mp hi
    obtain rfl := Option.some.inj (hctx.symm.trans hctx')
    have hmem := List.mem_of_getElem? hctx
    rcases htaken with ⟨p, hp, hid⟩ | ⟨other, hother, hid⟩
    · obtain ⟨k, req, hreq, hne, hstream⟩ := hstay ctx hmem p hp hid
      exact (h.clash_iff hmem).mpr ⟨k, req, hreq, hne, p, hp, hid, hstream⟩
    · obtain ⟨j, hj, hget⟩ := List.mem_take_iff_getElem.mp hother
      have hpair := List.pairwise_iff_getElem.mp (List.pairwise_map.mp hnodup) j i (by omega)
        (List.getElem?_eq_some_iff.mp hctx).1 (by omega)
      rw [hget, (List.getElem?_eq_some_iff.mp hctx).2] at hpair
      exact absurd hid hpair

/-- A step that is not the screen refuses no create for its id. -/
theorem Hub.news_of_step (hw : hub.Wired) {ev : HubEvent} (hstep : hub.step ev = some hub') :
    (ev = .handoff .screen ∧ hub.news hub'
        = (screenDuplicates hub.handoff.sys.store hub.handoff.screening).replies) ∨
      (ev ≠ .handoff .screen ∧ ∀ r ∈ hub.news hub', r.2.cancelReason ≠ "duplicate watch_id") := by
  have hnews : ∀ {news : List (Nat × WatchResponse)},
      hub'.handoff.replies = hub.handoff.replies ++ news → hub.news hub' = news := by
    intro news heq
    rw [Hub.news, heq, List.drop_left]
  have hsame : hub'.handoff.replies = hub.handoff.replies →
      ∀ r ∈ hub.news hub', r.2.cancelReason ≠ "duplicate watch_id" := by
    intro heq r hr
    rw [hnews (heq.trans (List.append_nil _).symm)] at hr
    cases hr
  cases Hub.moves_of_step hstep with
  | @handoff ev h' hbeside hh' =>
      obtain ⟨news, hreplies, hscreen⟩ :=
        replies_of_step hw.faults (besideStreams_ne_restart hbeside) hh'
      rw [hnews hreplies]
      rcases hscreen with ⟨rfl, rfl⟩ | ⟨hne, hreasons⟩
      · exact .inl ⟨rfl, rfl⟩
      · exact .inr ⟨fun heq => hne (HubEvent.handoff.inj heq), hreasons⟩
  | createRequest => exact .inr ⟨by simp, hsame rfl⟩
  | cancelRequest hloop hh' =>
      cases Handoff.moves_of_step hw.faults hh'
      exact .inr ⟨by simp, hsame rfl⟩
  | drop hf hh' =>
      cases Handoff.moves_of_step hw.faults hh'
      exact .inr ⟨by simp, hsame rfl⟩
  | stream => exact .inr ⟨by simp, hsame rfl⟩

/-- **When a duplicate id is one.** After any run of the server with its streams, the creates that a
step refuses for their ids clash with watchers of their own streams, under ids their clients named,
exactly if ids do not cross streams. -/
theorem duplicates_clash_iff {now : Nat} {contents : Bytes} {sys₀ : System}
    (hboot : System.boot now contents = some sys₀) {evs : List HubEvent}
    (hreach : (Hub.start sys₀).run evs = some hub) {ev : HubEvent}
    (hstep : hub.step ev = some hub') :
    (∀ r ∈ hub.news hub', r.2.cancelReason = "duplicate watch_id" →
        hub.Clash (createRequests evs) r.1) ↔
      hub.IdsStay (createRequests evs) ev := by
  obtain ⟨s₀, hopen, rfl⟩ := boot_eq_some hboot
  have hstart : (Hub.start ⟨s₀, none⟩).Ided [] := by
    obtain ⟨_, _, _, _, _, rfl⟩ := openStore_eq_ok hopen
    exact Hub.ided_start rfl rfl
  have h := hstart.run hreach
  rw [List.nil_append] at h
  -- only the screening of a batch refuses an id as a duplicate
  rcases Hub.news_of_step h.wired hstep with ⟨rfl, hnews⟩ | ⟨hne, hreasons⟩
  · rw [hnews, ← h.clashes_iff]
    constructor
    · intro hclash i hi ctx hctx
      exact hclash _ (mem_screenDuplicates_replies.mpr ⟨i, hi, ctx, hctx, rfl⟩) rfl
    · intro hclash r hr _
      obtain ⟨i, hi, ctx, hctx, rfl⟩ := mem_screenDuplicates_replies.mp hr
      exact hclash i hi ctx hctx
  · refine iff_of_true (fun r hr hreason => absurd hreason (hreasons r hr)) ?_
    unfold Hub.IdsStay
    split
    · exact absurd rfl hne
    · trivial

end

end

/-- A stream has a watch, and one is asked for under its id. -/
def sameIdRequested (i : Nat) (req : WatchCreateRequest) : List HubEvent :=
  undisturbedCreate 0 { key := [1], watchId := 1 } 0
    ++ [.createRequest i req, .handoff (.checkpoint 1), .handoff .compactRev, .handoff .admission]

/-- The stream itself asks for it. -/
theorem duplicates_clash_same_stream :
    ∃ sys₀ hub hub', System.boot 0 [] = some sys₀ ∧
      (Hub.start sys₀).run (sameIdRequested 0 { key := [2], watchId := 1 }) = some hub ∧
      hub.step (.handoff .screen) = some hub' ∧
      (hub.news hub').map (fun r => (r.1, r.2.cancelReason)) = [(1, "duplicate watch_id")] ∧
      ∀ r ∈ hub.news hub', hub.Clash
        (createRequests (sameIdRequested 0 { key := [2], watchId := 1 })) r.1 := by
  have hrun : ((System.boot 0 []).any fun sys₀ =>
      ((Hub.start sys₀).run (sameIdRequested 0 { key := [2], watchId := 1 })).any fun hub =>
        (hub.step (.handoff .screen)).any fun hub' =>
          decide ((hub.news hub').map (fun r => (r.1, r.2.cancelReason))
            = [(1, "duplicate watch_id")]) &&
          decide (hub.handoff.screening.map WatchContext.entry = [(1, 1)]) &&
          decide (hub.handoff.watched.map (·.2.create) = [0]) &&
          decide ((hub.streams 0).creates = [0, 1])) = true := by
    decide +kernel
  obtain ⟨sys₀, hboot, hrun⟩ := (Option.any_eq_true _ _).mp hrun
  obtain ⟨hub, hhub, hrun⟩ := (Option.any_eq_true _ _).mp hrun
  obtain ⟨hub', hstep, hfacts⟩ := (Option.any_eq_true _ _).mp hrun
  simp only [Bool.and_eq_true, decide_eq_true_eq] at hfacts
  obtain ⟨⟨⟨hnews, hscreening⟩, hwatched⟩, hcreates⟩ := hfacts
  refine ⟨sys₀, hub, hub', hboot, hhub, hstep, hnews, ?_⟩
  have hclash := (duplicates_clash_iff hboot hhub hstep).mpr ⟨?_, ?_⟩
  · intro r hr
    refine hclash r hr ?_
    have hmem :=
      List.mem_map_of_mem (f := fun r : Nat × WatchResponse => (r.1, r.2.cancelReason)) hr
    rw [hnews, List.mem_singleton] at hmem
    exact (Prod.mk.inj hmem).2
  · have hids := congrArg (List.map Prod.snd) hscreening
    rw [List.map_map] at hids
    show (hub.handoff.screening.map (Prod.snd ∘ WatchContext.entry)).Nodup
    rw [hids]
    decide
  · intro ctx hctx p hp _
    have hentry := List.mem_map_of_mem (f := WatchContext.entry) hctx
    rw [hscreening, List.mem_singleton] at hentry
    have hcreate := List.mem_map_of_mem (f := fun p : WatchRegistration × Origin => p.2.create) hp
    rw [hwatched, List.mem_singleton] at hcreate
    refine ⟨0, { key := [2], watchId := 1 }, ?_, by decide, ?_⟩
    · rw [show ctx.reply = 1 from (Prod.mk.inj hentry).1]
      rfl
    · rw [hcreate, hcreates]
      exact List.mem_cons_self

/-- Another stream asks for no particular id, and the server chooses this one. -/
theorem server_id_refused_as_duplicate :
    ∃ sys₀ hub hub', System.boot 0 [] = some sys₀ ∧
      (Hub.start sys₀).run (sameIdRequested 1 { key := [2], watchId := 0 }) = some hub ∧
      hub.step (.handoff .screen) = some hub' ∧
      (hub.news hub').map (fun r => (r.1, r.2.cancelReason)) = [(1, "duplicate watch_id")] ∧
      ¬ hub.Clash (createRequests (sameIdRequested 1 { key := [2], watchId := 0 })) 1 := by
  have hrun : ((System.boot 0 []).any fun sys₀ =>
      ((Hub.start sys₀).run (sameIdRequested 1 { key := [2], watchId := 0 })).any fun hub =>
        (hub.step (.handoff .screen)).any fun hub' =>
          decide ((hub.news hub').map (fun r => (r.1, r.2.cancelReason))
            = [(1, "duplicate watch_id")])) = true := by
    decide +kernel
  obtain ⟨sys₀, hboot, hrun⟩ := (Option.any_eq_true _ _).mp hrun
  obtain ⟨hub, hhub, hrun⟩ := (Option.any_eq_true _ _).mp hrun
  obtain ⟨hub', hstep, hfacts⟩ := (Option.any_eq_true _ _).mp hrun
  refine ⟨sys₀, hub, hub', hboot, hhub, hstep, of_decide_eq_true hfacts, ?_⟩
  intro hclash
  obtain ⟨i, req, hreq, hne, -⟩ := hclash
  have hsecond : createRequests (sameIdRequested 1 { key := [2], watchId := 0 })
      = [(0, { key := [1], watchId := 1 }), (1, { key := [2], watchId := 0 })] := rfl
  rw [hsecond] at hreq
  cases hreq
  exact hne rfl

end Rudurru
