import Rudurru.Recovery
import Rudurru.Storage.Sorting

/-!
# Rudurru.Watermark

The compaction watermark, `compact_rev`: below it, ranges and watch creates are turned away.

It lives in memory only. As long as the process runs, nothing lowers it, appends that fail
included (`watermark_permanent`); `Store::open` starts over from zero, so a restart forgets it
(`restart_forgets_watermark`).

Two monotone quantities are carried along a run, each by every operation: the watermark does not
fall and the counter does not go back (`Advances`). Most operations do not touch either
(`Untouched`, `Steady`), so what has to be looked at is `compact` itself, which refuses to go down,
and the allocation of revisions. A counter that wraps would put the watermark out of reach, so the
statement is about runs in which it does not.
-/

namespace Rudurru

open Prog (exec Within)

/-! ### Writes

A write changes the map, the file and what watchers were sent, whether its append succeeds or
not. -/

/-- The leases and the counters are as they were. -/
structure Untouched (s s' : StoreState) : Prop where
  leases : s'.leases = s.leases
  nextLeaseId : s'.nextLeaseId = s.nextLeaseId
  nextRev : s'.nextRev = s.nextRev
  compactRev : s'.compactRev = s.compactRev

instance : IsPreorder StoreState Untouched where
  refl _ := ⟨rfl, rfl, rfl, rfl⟩
  trans _ _ _ h h' :=
    { leases := h'.leases.trans h.leases
      nextLeaseId := h'.nextLeaseId.trans h.nextLeaseId
      nextRev := h'.nextRev.trans h.nextRev
      compactRev := h'.compactRev.trans h.compactRev }

/-- Deleting a key touches no counter, also when its blob cannot be patched. -/
theorem untouched_applyDelete (key : Bytes) (rev : UInt64) :
    Within Untouched (applyDelete key rev) := by
  unfold applyDelete
  refine Prog.within_get.bind fun s => ?_
  split
  · exact Prog.within_pure _
  · split
    · exact Prog.within_pure _
    · refine (Prog.within_modify fun _ => ⟨rfl, rfl, rfl, rfl⟩).bind fun _ => ?_
      split
      · exact Prog.within_throw _
      · exact (Prog.within_modify fun _ => ⟨rfl, rfl, rfl, rfl⟩).bind fun _ => Prog.within_pure _

/-- Nor does a batch of deletions, written or not. -/
theorem untouched_deleteBatch (recs : List KvWalRecord) (keys : List Bytes) (rev : UInt64)
    (e : Failure) : Within Untouched (do appendKvBatch recs e; applyDeletes keys rev) :=
  within_deleteBatch (fun _ _ => ⟨rfl, rfl, rfl, rfl⟩) (untouched_applyDelete · rev) recs keys e

/-! ### Steady operations -/

/-- Neither the watermark nor the revision counter moved. -/
def Steady (s s' : StoreState) : Prop := s'.compactRev = s.compactRev ∧ s'.nextRev = s.nextRev

instance : IsPreorder StoreState Steady where
  refl _ := ⟨rfl, rfl⟩
  trans _ _ _ h h' := ⟨h'.1.trans h.1, h'.2.trans h.2⟩

theorem Untouched.steady {s s' : StoreState} (h : Untouched s s') : Steady s s' :=
  ⟨h.compactRev, h.nextRev⟩

/-- The counter moved by one step at most, and the watermark did not come down. -/
def Advances (s s' : StoreState) : Prop :=
  s.compactRev ≤ s'.compactRev ∧ (s'.nextRev = s.nextRev ∨ s'.nextRev = s.nextRev + 1)

theorem Steady.advances {s s' : StoreState} (h : Steady s s') : Advances s s' :=
  ⟨by rw [h.1]; exact UInt64.le_refl _, .inl h.2⟩

theorem Advances.refl (s : StoreState) : Advances s s := ⟨UInt64.le_refl _, .inl rfl⟩

theorem Advances.trans_steady {s s' s'' : StoreState} (h : Advances s s') (h' : Steady s' s'') :
    Advances s s'' := by
  obtain ⟨hle, hnext⟩ := h
  obtain ⟨hcompact, hnext'⟩ := h'
  exact ⟨by rw [hcompact]; exact hle, by rw [hnext']; exact hnext⟩

theorem steady_leaseGrant (now : Nat) (id ttl : Int64) : Within Steady (leaseGrant now id ttl) :=
  within_leaseGrant (fun _ _ _ => ⟨rfl, rfl⟩) now id ttl

theorem steady_leaseKeepAlive (now : Nat) (id : Int64) : Within Steady (leaseKeepAlive now id) :=
  within_leaseKeepAlive (fun _ _ _ => ⟨rfl, rfl⟩) now id

/-- The one operation that moves the watermark refuses to move it down. -/
theorem compact_advances (revision : Int64) (s : StoreState) :
    (compact revision).Spec s fun _ s' => Advances s s' := by
  refine compact_rule revision (fun _ => .refl s) ?_
  intro hnew _ _
  exact ⟨UInt64.le_of_lt hnew, .inl rfl⟩

/-! ### Taking a revision -/

/-- A steady operation after a revision was taken. -/
theorem taken_advances {α : Type} {x : StoreM α} (s : StoreState) (hx : Within Steady x) :
    x.Spec { s with nextRev := s.nextRev + 1 } fun _ s' => Advances s s' := by
  refine (hx.spec _).mono ?_
  intro r s' h
  have hs : Advances s { s with nextRev := s.nextRev + 1 } := ⟨UInt64.le_refl _, .inr rfl⟩
  exact hs.trans_steady h

/-- A transaction that started in `s₀`: it has allocated a revision or it has not. -/
def Allocated (s₀ : StoreState) (c : TxnCursor) (s : StoreState) : Prop :=
  s.compactRev = s₀.compactRev ∧
    (c.rev = none ∧ s.nextRev = s₀.nextRev ∨ c.rev.isSome ∧ s.nextRev = s₀.nextRev + 1)

theorem Allocated.advances {s₀ s : StoreState} {c : TxnCursor} (h : Allocated s₀ c s) :
    Advances s₀ s := by
  obtain ⟨hcompact, hcur⟩ := h
  refine ⟨by rw [hcompact]; exact UInt64.le_refl _, ?_⟩
  rcases hcur with ⟨-, hnext⟩ | ⟨-, hnext⟩
  · exact .inl hnext
  · exact .inr hnext

theorem Allocated.steady {s₀ s s' : StoreState} {c : TxnCursor} (h : Allocated s₀ c s)
    (hs : Steady s s') : Allocated s₀ c s' := by
  obtain ⟨hcompact, hnext⟩ := hs
  exact ⟨hcompact.trans h.1, by rw [hnext]; exact h.2⟩

/-- The cursor takes a revision at most once. -/
theorem getRev_allocated {s₀ s : StoreState} {c : TxnCursor} (h : Allocated s₀ c s) :
    ∃ rev c' s', exec c.getRev s = (.ok (rev, c'), s') ∧ Allocated s₀ c' s' := by
  obtain ⟨hcompact, hcur⟩ := h
  cases hrev : c.rev with
  | none =>
      have hnext : s.nextRev = s₀.nextRev := by
        rcases hcur with ⟨-, hnext⟩ | ⟨hsome, -⟩
        · exact hnext
        · simp [hrev] at hsome
      refine ⟨s.nextRev, { c with rev := some s.nextRev }, { s with nextRev := s.nextRev + 1 },
        ?_, hcompact, .inr ⟨rfl, by simp [hnext]⟩⟩
      simp only [TxnCursor.getRev, hrev, allocRevision, Prog.exec_bind, Prog.exec_modifyGet,
        Prog.exec_pure]
  | some rev =>
      refine ⟨rev, c, s, ?_, hcompact, hcur⟩
      simp only [TxnCursor.getRev, hrev, Prog.exec_pure]

/-- So a write op of a transaction moves the counter by one at most, whether it fails or not. -/
theorem writeOp_allocated {α β : Type} {s₀ s : StoreState} {c : TxnCursor}
    (h : Allocated s₀ c s) {x : UInt64 → StoreM α} (g : α → β)
    (hx : ∀ rev, Within Steady (x rev)) :
    (writeOp c x g).Spec s (TxnPost (Allocated s₀) (Advances s₀)) := by
  obtain ⟨rev, c', s', hget, hin⟩ := getRev_allocated h
  refine Prog.spec_bind_ok hget (((hx rev).spec s').bind ?_ ?_)
  · intro e s'' hs
    exact .of_error (hin.steady hs).advances e
  · intro a s'' hs
    refine Prog.spec_pure ⟨?_, (hin.steady hs).advances⟩
    intro b c'' heq
    cases heq
    exact hin.steady hs

section

variable [Crates]

/-- A put at a given revision leaves the counters to its caller. -/
theorem untouched_putAt (req : PutRequest) (rev : UInt64) : Within Untouched (putAt req rev) :=
  within_putAt (fun _ _ => ⟨rfl, rfl, rfl, rfl⟩)
    (fun _ _ _ => Prog.within_modifyGet fun _ => ⟨rfl, rfl, rfl, rfl⟩) req

theorem untouched_deleteRangeAt (req : DeleteRangeRequest) (rev : UInt64) :
    Within Untouched (deleteRangeAt req rev) :=
  within_deleteRangeAt (fun _ _ => ⟨rfl, rfl, rfl, rfl⟩) (untouched_applyDelete · rev) req

theorem steady_putAt (req : PutRequest) (rev : UInt64) : Within Steady (putAt req rev) :=
  (untouched_putAt req rev).mono fun _ _ h => h.steady

theorem steady_deleteRangeAt (req : DeleteRangeRequest) (rev : UInt64) :
    Within Steady (deleteRangeAt req rev) :=
  (untouched_deleteRangeAt req rev).mono fun _ _ h => h.steady

/-! ### Requests -/

theorem put_advances (req : PutRequest) (s : StoreState) :
    (put req).Spec s fun _ s' => Advances s s' :=
  put_rule req (.refl s) (taken_advances s (steady_putAt req _))

theorem deleteRange_advances (req : DeleteRangeRequest) (s : StoreState) :
    (deleteRange req).Spec s fun _ s' => Advances s s' :=
  deleteRange_rule req (.refl s) (taken_advances s (steady_deleteRangeAt req _))

theorem allocated_invariant (s₀ : StoreState) :
    TxnInvariant (Allocated s₀) (Advances s₀) where
  error := fun h => h.advances
  deferred := fun _ h => h
  put := fun p h => writeOp_allocated h _ fun rev => steady_putAt p rev
  deleteRange := fun d h => writeOp_allocated h _ fun rev => steady_deleteRangeAt d rev

/-- All the ops of a transaction together take one revision at most. -/
theorem txn_advances (req : TxnRequest) (s : StoreState) :
    (txn req).Spec s fun _ s' => Advances s s' :=
  (allocated_invariant s).txn_spec req ⟨rfl, .inl ⟨rfl, rfl⟩⟩

/-- The shared part of revocation and expiry. -/
theorem dropLease_advances (id : Int64) (s : StoreState) :
    (deleteKeysForLease id).Spec { s with leases := s.leases.erase id }
      fun _ s' => Advances s s' := by
  refine deleteKeysForLease_rule id (fun _ => .refl s) ?_
  intro keys e _ _
  refine taken_advances { s with leases := s.leases.erase id } ?_
  exact (untouched_deleteBatch _ keys _ e).mono fun _ _ h => h.steady

theorem leaseRevoke_advances (id : Int64) (s : StoreState) :
    (leaseRevoke id).Spec s fun _ s' => Advances s s' :=
  leaseRevoke_rule id (fun _ => .refl s) fun _ => dropLease_advances id s

theorem leaseExpire_advances (now : Nat) (id : Int64) (s : StoreState) :
    (leaseExpire now id).Spec s fun _ s' => Advances s s' :=
  leaseExpire_rule now id (fun _ => .refl s) fun _ _ _ => dropLease_advances id s

/-- **No request lowers the watermark**, whatever happens to its appends. Failed appends included: a
revision that is taken is not given back. -/
theorem answer_advances {s s' : StoreState} {q : Request} (h : answer s q = some s') :
    Advances s s' := by
  refine answer_spec ?_ h
  cases q with
  | range req =>
      exact StoreM.spec_read_bind (fun _ _ => .refl s) fun _ _ => Prog.spec_pure (.refl s)
  | put req => exact StoreM.spec_wrap (put_advances req s)
  | deleteRange req => exact StoreM.spec_wrap (deleteRange_advances req s)
  | txn req => exact StoreM.spec_wrap (txn_advances req s)
  | compact revision => exact StoreM.spec_wrap (compact_advances revision s)
  | leaseGrant now id ttl =>
      exact StoreM.spec_wrap (((steady_leaseGrant now id ttl).spec s).mono fun _ _ h => h.advances)
  | leaseRevoke id => exact StoreM.spec_wrap (leaseRevoke_advances id s)
  | leaseKeepAlive now id =>
      exact StoreM.spec_wrap (((steady_leaseKeepAlive now id).spec s).mono fun _ _ h => h.advances)
  | leaseExpire now id => exact StoreM.spec_wrap (leaseExpire_advances now id s)

/-! ### The watermark along a run -/

/-- Revision `r` was reached and has been compacted. The second part keeps the first from being
about the future: a revision that was never reached is refused for another reason. -/
structure Compacted (r : UInt64) (s : StoreState) : Prop where
  watermark : r ≤ s.compactRev
  reached : r.toNat < s.nextRev.toNat

omit [Crates] in
/-- A positive revision that was reached lies below the counter. -/
theorem toNat_lt_nextRev {r : UInt64} {s : StoreState} (hpos : 0 < r)
    (hle : r ≤ s.currentRevision) : r.toNat < s.nextRev.toNat := by
  rw [UInt64.lt_iff_toNat_lt, UInt64.toNat_zero] at hpos
  rw [UInt64.le_iff_toNat_le] at hle
  by_cases hnext : s.nextRev = 0
  · rw [StoreState.currentRevision, if_pos hnext, UInt64.toNat_zero] at hle
    omega
  · have hnext := UInt64.lt_iff_toNat_lt.mp (UInt64.pos_iff_ne_zero.mpr hnext)
    have hcur := toNat_currentRevision hnext
    omega

omit [Crates] in
/-- What has been compacted stays compacted, as long as the counter does not wrap. -/
theorem Compacted.advances {r : UInt64} {s s' : StoreState} (h : Compacted r s)
    (hs : Advances s s') (hcount : s.nextRev.toNat + 1 < 2 ^ 64) : Compacted r s' := by
  obtain ⟨hle, hnext⟩ := hs
  refine ⟨UInt64.le_trans h.watermark hle, ?_⟩
  have hreached := h.reached
  rcases hnext with hnext | hnext
  · rw [hnext]
    exact hreached
  · rw [hnext, UInt64.toNat_add, UInt64.toNat_one]
    omega

omit [Crates] in
theorem Compacted.quiet {r : UInt64} {s s' : StoreState} (h : Compacted r s) (hs : Quiet s s') :
    Compacted r s' :=
  ⟨UInt64.le_trans h.watermark hs.compactRev_le, by rw [hs.nextRev]; exact h.reached⟩

/-- Every event but a restart keeps the watermark. -/
theorem Compacted.step {r : UInt64} {sys sys' : System} {ev : Event} (h : Compacted r sys.store)
    (hcounts : sys.StepCounts ev) (hrestart : ev.isRestart = false)
    (hstep : sys.step ev = some sys') : Compacted r sys'.store := by
  cases ev with
  | request q =>
      obtain ⟨s', hq, rfl⟩ := Option.map_eq_some_iff.mp hstep
      exact h.advances (answer_advances hq) hcounts.2
  | watch batch =>
      cases hstep
      exact h.quiet (quiet_flushGlobalBatch _ _)
  | cancelWatch watchId =>
      cases hstep
      exact h.quiet (quiet_cancelWatcher _ _)
  | compactA =>
      simp only [System.step] at hstep
      split at hstep <;> cases hstep
      exact h
  | compactB =>
      simp only [System.step] at hstep
      split at hstep <;> cases hstep
      exact h
  | compactC =>
      simp only [System.step] at hstep
      split at hstep <;> cases hstep
      exact ⟨h.watermark, h.reached⟩
  | compactFails =>
      cases hstep
      exact h
  | restart now => cases hrestart

/-! ### Turning requests away -/

/-- The answer to a range below the watermark. -/
def compactedError : Failure :=
  .status .outOfRange "etcdserver: mvcc: required revision has been compacted"

omit [Crates] in
/-- A compacted revision was reached. -/
theorem Compacted.le_currentRevision {r : UInt64} {s : StoreState} (h : Compacted r s) :
    r ≤ s.currentRevision := by
  have hreached := h.reached
  have hcur := @toNat_currentRevision s (by omega)
  rw [UInt64.le_iff_toNat_le]
  omega

/-- A range below the watermark is answered with the compacted error. -/
theorem Compacted.range_refused {r : UInt64} {s : StoreState} (h : Compacted r s)
    {req : RangeRequest} (hkey : req.key ≠ []) (hpos : 0 < req.revision)
    (hlt : req.revision.toUInt64 < r) : range s req = .error compactedError := by
  have hzero : (0 : UInt64) < req.revision.toUInt64 := toUInt64_lt_of_lt (Int64.le_refl 0) hpos
  have hreached : ¬ req.revision.toUInt64 > s.currentRevision :=
    UInt64.not_lt.mpr (UInt64.le_of_lt (UInt64.lt_of_lt_of_le hlt h.le_currentRevision))
  have hcompacted : req.revision.toUInt64 > 0 ∧ req.revision.toUInt64 < s.compactRev :=
    ⟨hzero, UInt64.lt_of_lt_of_le hlt h.watermark⟩
  simp only [range, checkKey, hkey, if_false, if_pos hpos, if_neg hreached, if_pos hcompacted]
  rfl

omit [Crates] in
/-- A create below the watermark is turned away, with the watermark in the reply. -/
theorem admitCreate_compacted {s : StoreState} {c : GlobalCreate}
    (hpos : 0 < c.pending.startRevision) (hlt : c.pending.startRevision < s.compactRev) :
    admitCreate s c = .error (refusal s.currentRevision s.compactRev.toInt64 "compacted") := by
  have hcompacted : c.pending.startRevision > 0 ∧ c.pending.startRevision < s.compactRev :=
    ⟨hpos, hlt⟩
  simp only [admitCreate, if_pos hcompacted]

omit [Crates] in
/-- The creates that are served start at the watermark or above, or ask for no history. -/
theorem start_of_admitCreate {s : StoreState} {c : GlobalCreate} {ctx : WatchContext}
    (h : admitCreate s c = .ok ctx) :
    ctx.pending.startRevision = 0 ∨ s.compactRev ≤ ctx.pending.startRevision := by
  obtain ⟨hstart, rfl⟩ := admitCreate_eq_ok h
  exact hstart

omit [Crates] in
/-- What is served after a flush has turned creates away was admitted. -/
theorem admitted_of_mem_active {s : StoreState} {batch : List GlobalCreate} {ctx : WatchContext}
    (h : ctx ∈ (flushAdmit s batch).active) : ∃ c ∈ batch, admitCreate s c = .ok ctx := by
  have hfold : ∀ (is : List Nat) (l : List WatchContext),
      ctx ∈ is.foldl swapRemove l → ctx ∈ l := by
    intro is
    induction is with
    | nil => exact fun _ h => h
    | cons i is ih => exact fun l h => mem_of_mem_swapRemove (ih _ h)
  obtain ⟨c, hc, hctx⟩ := List.mem_filterMap.mp (hfold _ _ h)
  refine ⟨c, hc, ?_⟩
  cases hadmitted : admitCreate s c with
  | error resp =>
      rw [hadmitted] at hctx
      cases hctx
  | ok ctx' =>
      rw [hadmitted] at hctx
      cases hctx
      rfl

omit [Crates] in
/-- Replaying events does not change what was asked for. -/
theorem pending_replayRecord (inPhase : UInt64 → Bool) (wants : WatchContext → UInt64 → Bool)
    (st : ReplayState) (rec : KvWalRecord) :
    (replayRecord inPhase wants st rec).active.map WatchContext.pending
      = st.active.map WatchContext.pending := by
  unfold replayRecord
  dsimp only
  split
  · rfl
  · split
    · rfl
    · rw [List.map_map]
      refine List.map_congr_left fun ctx _ => ?_
      exact (apply_ite WatchContext.pending _ _ _).trans (ite_self _)

omit [Crates] in
/-- A replay changes what creates are sent, and nothing that they are admitted by. -/
theorem pending_foldl_replayRecord (inPhase : UInt64 → Bool)
    (wants : WatchContext → UInt64 → Bool) (recs : List KvWalRecord) (st : ReplayState) :
    (recs.foldl (replayRecord inPhase wants) st).active.map WatchContext.pending
      = st.active.map WatchContext.pending := by
  induction recs generalizing st with
  | nil => rfl
  | cons rec recs ih => rw [List.foldl_cons, ih, pending_replayRecord]

/-- No watcher that a flush registers starts below the watermark. -/
theorem start_of_registered {s : StoreState} {batch : List GlobalCreate} {w : WatchRegistration}
    (h : w ∈ (flushGlobalBatch s batch).2.watchers) :
    w ∈ s.watchers ∨ w.startRevision = 0 ∨ s.compactRev ≤ w.startRevision := by
  have hwatchers : (flushGlobalBatch s batch).2.watchers = s.watchers ++ _ :=
    watchers_registerAll _ s
  rw [hwatchers] at h
  rcases List.mem_append.mp h with h | h
  · exact .inl h
  · obtain ⟨ctx, hctx, rfl⟩ := List.mem_map.mp h
    have hpending : ctx.pending ∈ (flushAdmit s batch).active.map WatchContext.pending := by
      have hmem := @List.mem_map_of_mem _ _ _ _ WatchContext.pending hctx
      rw [flushPhase2, phase2Record, pending_foldl_replayRecord, flushPhase1, phase1Record,
        pending_foldl_replayRecord] at hmem
      exact hmem
    obtain ⟨ctx', hctx', hsame⟩ := List.mem_map.mp hpending
    obtain ⟨c, -, hadmitted⟩ := admitted_of_mem_active hctx'
    have hstart := start_of_admitCreate hadmitted
    rw [hsame] at hstart
    exact .inr hstart

/-- A successful `compact` raises the watermark to a revision that was reached. -/
theorem compacted_of_compact {s s' : StoreState} {r : Int64} {header : ResponseHeader}
    (h : exec (handle (.compact r)) s = (.ok (.compact header), s')) :
    Compacted r.toUInt64 s' := by
  have hspec : (compact r).Spec s fun res s' => ∀ a, res = .ok a → Compacted r.toUInt64 s' := by
    refine compact_rule r (fun _ _ ha => by cases ha) ?_
    intro hnew hreached _ _ _
    refine ⟨UInt64.le_refl _, ?_⟩
    exact toNat_lt_nextRev (UInt64.lt_of_le_of_lt UInt64.zero_le hnew) hreached
  rw [handle, Prog.exec_bind] at h
  unfold StoreM.Spec Prog.Spec at hspec
  rcases hr : exec (compact r) s with ⟨res, s₁⟩
  rw [hr] at h hspec
  cases res with
  | error e => cases h
  | ok a =>
      cases h
      exact hspec (by simp) _ rfl

/-- A `compact` that succeeds is answered with a header. -/
theorem exec_compact_of_ok {s : StoreState} {r : Int64}
    (h : (exec (handle (.compact r)) s).1.toOption.isSome = true) :
    ∃ header, exec (handle (.compact r)) s
      = (.ok (.compact header), (exec (handle (.compact r)) s).2) := by
  rw [handle, Prog.exec_bind] at h ⊢
  rcases hr : exec (compact r) s with ⟨res, s₁⟩
  rw [hr] at h
  cases res with
  | error e => cases h
  | ok header => exact ⟨header, rfl⟩

/-- **The watermark is permanent while the process runs.** After `compact r` has returned, and
whatever events follow short of a restart, ranges at earlier revisions are answered with the
compacted error, and creates of watchers that start earlier are canceled with a
`compact_revision` of at least `r` and never registered. -/
theorem watermark_permanent {sys₀ sys : System} {r : Int64} {header : ResponseHeader}
    {s : StoreState} {evs : List Event}
    (hcompact : exec (handle (.compact r)) sys₀.store = (.ok (.compact header), s))
    (hrun : System.run { sys₀ with store := s } evs = some sys)
    (hcounts : Trace.Along System.step System.StepCounts { sys₀ with store := s } evs)
    (hrestart : ∀ ev ∈ evs, ev.isRestart = false) :
    (∀ req : RangeRequest, req.key ≠ [] → 0 < req.revision → req.revision < r →
      range sys.store req = .error compactedError) ∧
    ∀ batch : List GlobalCreate,
      (∀ c ∈ batch, 0 < c.pending.startRevision → c.pending.startRevision < r.toUInt64 →
        ∃ resp, (c.reply, resp) ∈ (flushGlobalBatch sys.store batch).1 ∧ resp.created = false ∧
          resp.canceled = true ∧ r.toUInt64 ≤ resp.compactRevision.toUInt64) ∧
      ∀ w ∈ (flushGlobalBatch sys.store batch).2.watchers, w ∉ sys.store.watchers →
        ¬ (0 < w.startRevision ∧ w.startRevision < r.toUInt64) := by
  have hstep : ∀ (sys₁ : System) (ev : Event) (sys₂ : System), Compacted r.toUInt64 sys₁.store →
      sys₁.StepCounts ev ∧ ev.isRestart = false → sys₁.step ev = some sys₂ →
        Compacted r.toUInt64 sys₂.store :=
    fun _ _ _ h hev hstep => h.step hev.1 hev.2 hstep
  -- the watermark stays at `r` or above, and the current revision above the watermark
  have hinv : Compacted r.toUInt64 sys.store :=
    Trace.invariant hstep (compacted_of_compact hcompact) (hcounts.and_mem hrestart) hrun
  refine ⟨?_, ?_⟩
  · intro req hkey hpos hlt
    exact hinv.range_refused hkey hpos (toUInt64_lt_of_lt (Int64.le_of_lt hpos) hlt)
  · intro batch
    refine ⟨?_, ?_⟩
    · intro c hc hpos hlt
      have hrefused := admitCreate_compacted hpos (UInt64.lt_of_lt_of_le hlt hinv.watermark)
      refine ⟨_, List.mem_append_left _ (List.mem_append_left _ (List.mem_filterMap.mpr
        ⟨c, hc, by rw [hrefused]⟩)), rfl, rfl, ?_⟩
      simpa [refusal] using hinv.watermark
    · intro w hw hnew hstart
      rcases start_of_registered hw with hold | hzero | hle
      · exact hnew hold
      · rw [hzero] at hstart
        exact absurd hstart.1 (UInt64.lt_irrefl 0)
      · exact absurd (UInt64.lt_of_lt_of_le hstart.2 hinv.watermark) (UInt64.not_lt.mpr hle)

end

/-- Two puts, a compaction at the second revision, another put, and a compaction of the file. -/
theorem watermark_permanent_compact_wal :
    ∃ sys₀ sys header s,
      System.run ⟨fresh, none⟩ [.request (.put { key := [1] }), .request (.put { key := [1] })]
        = some sys₀ ∧
      exec (handle (.compact 2)) sys₀.store = (.ok (.compact header), s) ∧
      System.run { sys₀ with store := s }
        [.request (.put { key := [2] }), .compactA, .compactB, .compactC] = some sys ∧
      range sys.store { key := [1], revision := 1 } = .error compactedError := by
  have hrun : ((System.run ⟨fresh, none⟩
      [.request (.put { key := [1] }), .request (.put { key := [1] })]).any fun sys₀ =>
        (exec (handle (.compact 2)) sys₀.store).1.toOption.isSome &&
          decide (Trace.Along System.step System.StepCounts
            { sys₀ with store := (exec (handle (.compact 2)) sys₀.store).2 }
            [.request (.put { key := [2] }), .compactA, .compactB, .compactC]) &&
          (System.run { sys₀ with store := (exec (handle (.compact 2)) sys₀.store).2 }
            [.request (.put { key := [2] }), .compactA, .compactB, .compactC]).isSome) = true := by
    decide +kernel
  obtain ⟨sys₀, hsys₀, hrun⟩ := (Option.any_eq_true _ _).mp hrun
  obtain ⟨hrun, hsome⟩ := (Bool.and_eq_true _ _).mp hrun
  obtain ⟨hok, hcounts⟩ := (Bool.and_eq_true _ _).mp hrun
  obtain ⟨header, hcompact⟩ := exec_compact_of_ok hok
  obtain ⟨sys, hsys⟩ := Option.isSome_iff_exists.mp hsome
  refine ⟨sys₀, sys, header, _, hsys₀, hcompact, hsys, ?_⟩
  exact (watermark_permanent hcompact hsys (of_decide_eq_true hcounts) (by decide)).1 _
    (by decide) (by decide) (by decide)

/-- A restart forgets the watermark: a range and a watch create below it are served again. -/
theorem restart_forgets_watermark :
    ∃ sys₀ sys header s,
      System.run ⟨fresh, none⟩ [.request (.put { key := [1] }), .request (.put { key := [1] })]
        = some sys₀ ∧
      exec (handle (.compact 2)) sys₀.store = (.ok (.compact header), s) ∧
      System.run { sys₀ with store := s } [.restart 0] = some sys ∧
      (∃ resp, range sys.store { key := [1], revision := 1 } = .ok resp) ∧
      ∃ resp, (0, resp) ∈ (flushGlobalBatch sys.store
        [{ pending := { key := [1], startRevision := 1 }, reply := 0, watchId := 7 }]).1 ∧
          resp.created = true := by
  have hrun : ((System.run ⟨fresh, none⟩
      [.request (.put { key := [1] }), .request (.put { key := [1] })]).any fun sys₀ =>
        (exec (handle (.compact 2)) sys₀.store).1.toOption.isSome &&
          (System.run { sys₀ with store := (exec (handle (.compact 2)) sys₀.store).2 }
            [.restart 0]).any fun sys =>
              (range sys.store { key := [1], revision := 1 }).toOption.isSome &&
                (flushGlobalBatch sys.store
                  [{ pending := { key := [1], startRevision := 1 }, reply := 0,
                     watchId := 7 }]).1.any
                    fun r => r.1 = 0 && r.2.created) = true := by
    decide +kernel
  obtain ⟨sys₀, hsys₀, hrun⟩ := (Option.any_eq_true _ _).mp hrun
  obtain ⟨hok, hrun⟩ := (Bool.and_eq_true _ _).mp hrun
  obtain ⟨header, hcompact⟩ := exec_compact_of_ok hok
  obtain ⟨sys, hsys, hrun⟩ := (Option.any_eq_true _ _).mp hrun
  obtain ⟨hrange, hwatch⟩ := (Bool.and_eq_true _ _).mp hrun
  refine ⟨sys₀, sys, header, _, hsys₀, hcompact, hsys, ?_, ?_⟩
  · obtain ⟨resp, hresp⟩ := Option.isSome_iff_exists.mp hrange
    exact ⟨resp, Prog.ok_of_toOption hresp⟩
  · obtain ⟨⟨reply, resp⟩, hmem, hcreated⟩ := List.any_eq_true.mp hwatch
    obtain ⟨hreply, hcreated⟩ := (Bool.and_eq_true _ _).mp hcreated
    obtain rfl : reply = 0 := of_decide_eq_true hreply
    exact ⟨resp, hmem, hcreated⟩

end Rudurru
