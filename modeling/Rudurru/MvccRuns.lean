import Rudurru.Leases
import Rudurru.MvccSound
import Rudurru.Representation

/-!
# Rudurru.MvccRuns

Runs of the server against runs of `Mvcc`. Watches, cancellations and the phases of a WAL
compaction are nothing on the abstract store, and a request is one request. A restart is an abstract
restart as long as the WAL file has not been swapped: it holds every write then, and what is not
written to it is what `Mvcc.restarted` makes up.

The simulation has two relations. Up to the first swap of the file it carries the log along
(`Retained`), because a restart has to find every write; after it the states alone are compared
(`Shows`), and no restart is left to come. `Trace.simulates` turns the two step lemmas into
statements about runs, and the two parts are put one behind the other.
-/

namespace Rudurru

open Std (ExtTreeMap)
open Prog (exec)

section

variable [Crates]

/-! ### One event -/

/-- A request on a store that shows `K`. -/
theorem Shows.answer {s s' : StoreState} {K : Mvcc} (h : Shows s K)
    (hlt : s.nextRev.toNat + 1 < 2 ^ 64) {q : Request} (hq : q.isCurrent = true)
    (hs' : answer s q = some s') :
    (exec (handle q) s).1 = (exec (Mvcc.handle q) K).1 ∧ Shows s' (exec (Mvcc.handle q) K).2 := by
  obtain ⟨hclean, rfl⟩ := h
  obtain ⟨rfl, hret⟩ := answer_eq_some hs'
  refine (refines_handle hclean hlt hq).outcome fun e he hpanic => ?_
  rw [hret e he] at hpanic
  cases hpanic

omit [Crates] in
/-- What is neither the keyspace nor the counters is not shown. -/
theorem Shows.quiet {s s' : StoreState} {K : Mvcc} (h : Shows s K) (hq : Quiet s s')
    (hu : Untouched s s') : Shows s' K := by
  obtain ⟨hclean, rfl⟩ := h
  have hkeys : s'.keys = s.keys := congrArg Keyspace.keys hq.keyspace
  refine ⟨⟨by rw [hq.wal]; exact hclean.faults, by rw [hq.nextRev]; exact hclean.nextRev, ?_⟩, ?_⟩
  · intro key ks hks
    rw [StoreState.alive?, hkeys] at hks
    exact hclean.blobs key ks hks
  · refine Mvcc.ext (currentRevision_congr hq.nextRev) ?_ hu.compactRev hu.leases hu.nextLeaseId
    show s'.pairs = s.pairs
    rw [StoreState.pairs, StoreState.pairs, hkeys]

omit [Crates] in
/-- What a swap of the file leaves. -/
theorem Shows.swap {s : StoreState} {K : Mvcc} (h : Shows s K) (target : Bytes) (walSize : Nat) :
    Shows (s.compactPhaseC target walSize) K :=
  ⟨⟨h.1.faults, h.1.nextRev, h.1.blobs⟩, h.2⟩

/-- **One event, other than a restart**: a request is matched by the request, anything else by
nothing. -/
theorem Shows.step {sys sys' : System} {ev : Event} {K : Mvcc} (h : Shows sys.store K)
    (hcounts : sys.StepCounts ev) (hcurrent : ev.isCurrent = true) (hev : ev.isRestart = false)
    (hstep : sys.step ev = some sys') :
    ∃ evs K', Trace.run Mvcc.step K evs = some K' ∧ Shows sys'.store K' ∧
      Trace.outputs Mvcc.step Mvcc.sees K evs = sys.sees ev := by
  -- housekeeping is no step of the map: it sees nothing and is not seen
  have hnothing (h' : Shows sys'.store K) (hsees : sys.sees ev = []) :
      ∃ evs K', Trace.run Mvcc.step K evs = some K' ∧ Shows sys'.store K' ∧
        Trace.outputs Mvcc.step Mvcc.sees K evs = sys.sees ev := ⟨[], K, rfl, h', hsees.symm⟩
  cases ev with
  | request q =>
      obtain ⟨s', hs', rfl⟩ := Option.map_eq_some_iff.mp hstep
      obtain ⟨hreply, hshows⟩ := h.answer hcounts.2 hcurrent hs'
      refine ⟨[.request q], _, Trace.run_singleton _ _, hshows, ?_⟩
      rw [Trace.outputs_singleton, Mvcc.sees, System.sees, hreply]
  | watch batch =>
      cases hstep
      exact hnothing (h.quiet (quiet_flushGlobalBatch _ _) (untouched_flushGlobalBatch _ _)) rfl
  | cancelWatch watchId =>
      cases hstep
      exact hnothing (h.quiet (quiet_cancelWatcher _ _) ⟨rfl, rfl, rfl, rfl⟩) rfl
  | compactA =>
      refine hnothing ?_ rfl
      simp only [System.step] at hstep
      split at hstep <;> cases hstep
      exact h
  | compactB =>
      refine hnothing ?_ rfl
      simp only [System.step] at hstep
      split at hstep <;> cases hstep
      exact h
  | compactC =>
      refine hnothing ?_ rfl
      simp only [System.step] at hstep
      split at hstep <;> cases hstep
      exact h.swap _ _
  | compactFails =>
      cases hstep
      exact hnothing h rfl
  | restart now => cases hev

/-! ### Restarts -/

/-- The store and its log, and what it is for its clients. -/
structure Retained (sys : System) (K : Mvcc) : Prop where
  logged : ∃ ws, Logged ws sys
  shows : Shows sys.store K

omit [Crates] in
/-- A restart finds the leases of the pairs. -/
theorem restoredLeases_mvcc (s : StoreState) : s.mvcc.attached = s.restoredLeases := by
  rw [Mvcc.attached, StoreState.restoredLeases, StoreState.pairs_mvcc, StoreState.toList_pairs,
    List.filter_map, List.filter_filter, List.map_map]
  refine congrArg (fun ids : List Int64 =>
    (ids.foldl (fun (m : ExtTreeMap Int64 Unit) id => m.insert id ()) ∅).keys) ?_
  refine congrArg (List.map _) (List.filter_congr fun e _ => ?_)
  exact Bool.and_comm _ _

omit [Crates] in
/-- Two stores that hold the same keys hold the same pairs. -/
theorem pairs_congr {s s' : StoreState} (h : s'.keys = s.keys) : s'.pairs = s.pairs := by
  rw [StoreState.pairs, StoreState.pairs, h]

omit [Crates] in
/-- What a restart shows. -/
theorem mvcc_opened (s : StoreState) (now : Nat) (contents : Bytes) (recs : List KvWalRecord) :
    (opened now contents recs s.keyspace).mvcc
      = s.mvcc.restarted now (opened now contents recs s.keyspace).currentRevision := by
  have hids : s.mvcc.attached = StoreState.restoredLeases
      { (StoreState.new (.open contents)).withKeyspace s.keyspace with
        nextRev := maxRevision recs 0 + 1 } := restoredLeases_mvcc s
  refine Mvcc.ext rfl (pairs_congr rfl) rfl ?_ ?_
  · rw [Mvcc.restarted, hids]
    rfl
  · rw [Mvcc.restarted, hids]
    rfl

section

variable [LawfulCrates]

/-- The store that a restart opens on such a log. -/
theorem Logged.opened {ws : List Write} {sys : System} (h : Logged ws sys) (now : Nat) :
    openStore now sys.store.wal.contents = .ok (Rudurru.opened now sys.store.wal.contents
      (ws.map Write.record) sys.store.keyspace) := by
  have hscan : scanKvFile (serializeAll (ws.map Write.record)) 0 = ([] ++ ws.map Write.record, _) :=
    scanKvFile_serializeAll (wellFormed_of_fits h.fits)
  rw [← h.contents] at hscan
  refine openStore_append_run hscan rfl h.run h.fits (fun w hw => ?_) now
  rw [(Write.record_spec (h.fits w hw)).2.2]
  exact (h.below w hw).1

/-- **A restart**: the pairs are there, at a revision that is not above the one before and not
below that of any pair. -/
theorem Retained.restart {sys : System} {K : Mvcc} (h : Retained sys K) {now : Nat}
    {s' : StoreState} (hopen : openStore now sys.store.wal.contents = .ok s') :
    ∃ rev K', Mvcc.step K (.restart now rev) = some K' ∧ Retained ⟨s', none⟩ K' := by
  obtain ⟨⟨ws, hws⟩, -, rfl⟩ := h
  have hlogged := hws.restart hopen
  have heq : s' = Rudurru.opened now sys.store.wal.contents (ws.map Write.record)
      sys.store.keyspace := Except.ok.inj (hopen.symm.trans (hws.opened now))
  have hbefore := toNat_currentRevision hws.nextRev_pos
  have hafter : s'.currentRevision.toNat + 1 = s'.nextRev.toNat :=
    toNat_currentRevision hlogged.nextRev_pos
  -- the counter restarts behind the newest record, never above where it stood
  have hback : s'.currentRevision ≤ sys.store.currentRevision := by
    have hmax : (maxRevision (ws.map Write.record) 0).toNat < sys.store.nextRev.toNat := by
      rcases @maxRevision_mem (ws.map Write.record) 0 with hzero | ⟨rec, hrec, hrev⟩
      · rw [hzero]
        exact hws.nextRev_pos
      · obtain ⟨w, hw, rfl⟩ := List.mem_map.mp hrec
        rw [hrev, (Write.record_spec (hws.fits w hw)).2.2]
        exact (hws.below w hw).2
    have hnext : s'.nextRev.toNat = ((maxRevision (ws.map Write.record) 0).toNat + 1) % 2 ^ 64 := by
      rw [heq, opened_nextRev, UInt64.toNat_add, UInt64.toNat_one]
    have hcounter := sys.store.nextRev.toNat_lt
    rw [UInt64.le_iff_toNat_le]
    omega
  -- and no pair that survives is newer than that
  have hpairs : ∀ e ∈ sys.store.mvcc.pairs.toList, e.2.modRevision ≤ s'.currentRevision := by
    intro e he
    rw [StoreState.pairs_mvcc, StoreState.toList_pairs] at he
    obtain ⟨e, hmem, rfl⟩ := List.mem_map.mp he
    obtain ⟨hmem, halive⟩ := List.mem_filter.mp hmem
    have hbelow : e.2.modRevision.toNat < s'.nextRev.toNat :=
      (AliveRevisions.empty fun r => r.toNat < s'.nextRev.toNat).run hws.run
        (fun w hw => (hlogged.below w hw).2) e.1 e.2
        (aliveIn_eq_some.mpr ⟨ExtTreeMap.mem_toList_iff_getElem?_eq_some.mp hmem, halive⟩)
    show e.2.modRevision ≤ s'.currentRevision
    rw [UInt64.le_iff_toNat_le]
    omega
  refine ⟨s'.currentRevision, _, if_pos ⟨hback, hpairs⟩, ⟨ws, hlogged⟩,
    ⟨hlogged.faults, hlogged.nextRev_pos, ?_⟩, ?_⟩
  · exact Coherent.run (by simp [Coherent, aliveIn, Keyspace.empty]) hlogged.run
  · rw [heq]
    exact mvcc_opened _ _ _ _

/-- **One event, as long as the file is not swapped.** Restarts included, which is why the log has
to come along. -/
theorem Retained.step {sys sys' : System} {ev : Event} {K : Mvcc} (h : Retained sys K)
    (hok : sys.StepOk ev) (hcurrent : ev.isCurrent = true) (hswap : ev.isSwap = false)
    (hstep : sys.step ev = some sys') :
    ∃ evs K', Trace.run Mvcc.step K evs = some K' ∧ Retained sys' K' ∧
      Trace.outputs Mvcc.step Mvcc.sees K evs = sys.sees ev := by
  cases hev : ev.isRestart with
  | false =>
      obtain ⟨evs, K', hrun, hshows, hsees⟩ := h.shows.step hok.2 hcurrent hev hstep
      obtain ⟨ws, hws⟩ := h.logged
      obtain ⟨vs, hvs⟩ := hws.step hok hswap hstep
      exact ⟨evs, K', hrun, ⟨⟨ws ++ vs, hvs⟩, hshows⟩, hsees⟩
  | true =>
      cases ev with
      | restart now =>
          simp only [System.step, System.boot, Option.map_eq_some_iff] at hstep
          obtain ⟨s', hs', rfl⟩ := hstep
          obtain ⟨rev, K', hrestart, hretained⟩ := h.restart (Prog.ok_of_toOption hs')
          refine ⟨[.restart now rev], K', ?_, hretained, Trace.outputs_singleton _ _⟩
          rw [Trace.run_singleton, hrestart]
      | request _ | watch _ | cancelWatch _ | compactA | compactB | compactC | compactFails =>
          cases hev

omit [Crates] [LawfulCrates] in
theorem shows_fresh : Shows fresh .empty := by
  refine ⟨⟨rfl, by decide, ?_⟩, Mvcc.ext rfl ?_ rfl rfl rfl⟩
  · intro key ks hks
    simp [fresh, StoreState.alive?, aliveIn, StoreState.new] at hks
  · refine pairs_ext fun key => ?_
    rw [StoreState.pairs_mvcc, StoreState.getElem?_pairs]
    simp [fresh, StoreState.alive?, aliveIn, StoreState.new, Mvcc.empty]

/-- **The server is its abstract store.** In a run of requests, watches, restarts and compactions of
the WAL in which no restart comes after a swap of the file, everything that is seen from outside,
the replies one by one, is seen in a run of the abstract store: one where a put inserts a pair, a
delete takes pairs away, and the writes of a transaction have one revision. -/
theorem store_refines_mvcc {evs₁ evs₂ : List Event} {sys₁ sys₂ : System}
    (hrun₁ : System.run ⟨fresh, none⟩ evs₁ = some sys₁) (hrun₂ : System.run sys₁ evs₂ = some sys₂)
    (hok₁ : Trace.Along System.step System.StepOk ⟨fresh, none⟩ evs₁)
    (hok₂ : Trace.Along System.step System.StepCounts sys₁ evs₂)
    (hcurrent : ∀ ev ∈ evs₁ ++ evs₂, ev.isCurrent = true)
    (hswap : ∀ ev ∈ evs₁, ev.isSwap = false) (hrestart : ∀ ev ∈ evs₂, ev.isRestart = false) :
    ∃ evs K, Trace.run Mvcc.step .empty evs = some K ∧
      Mvcc.history evs = System.history ⟨fresh, none⟩ (evs₁ ++ evs₂) ∧ sys₂.store.mvcc = K := by
  have hevs₁ : ∀ ev ∈ evs₁, ev.isCurrent = true ∧ ev.isSwap = false :=
    fun ev hev => ⟨hcurrent ev (List.mem_append_left _ hev), hswap ev hev⟩
  have hevs₂ : ∀ ev ∈ evs₂, ev.isCurrent = true ∧ ev.isRestart = false :=
    fun ev hev => ⟨hcurrent ev (List.mem_append_right _ hev), hrestart ev hev⟩
  -- up to the first swap a restart needs the file to hold all writes; after it there is none, and
  -- the states alone are compared
  obtain ⟨avs₁, K₁, harun₁, h₁, hsees₁⟩ := Trace.simulates
    (fun _ _ _ _ h hP hstep => Retained.step h hP.1 hP.2.1 hP.2.2 hstep)
    (⟨⟨[], logged_fresh⟩, shows_fresh⟩ : Retained ⟨fresh, none⟩ .empty) (hok₁.and_mem hevs₁) hrun₁
  obtain ⟨avs₂, K₂, harun₂, h₂, hsees₂⟩ := Trace.simulates
    (R := fun sys K => Shows sys.store K)
    (fun _ _ _ _ h hP hstep => Shows.step h hP.1 hP.2.1 hP.2.2 hstep) h₁.shows
    (hok₂.and_mem hevs₂) hrun₂
  refine ⟨avs₁ ++ avs₂, K₂, Trace.run_append_eq_some.mpr ⟨K₁, harun₁, harun₂⟩, ?_, h₂.2⟩
  rw [Mvcc.history, System.history, Trace.outputs_append harun₁, Trace.outputs_append hrun₁, hsees₁,
    hsees₂]

end

end

/-- A restart goes back over a delete that found nothing, and the WAL is then compacted between the
requests of a client. -/
theorem store_refines_mvcc_restarted :
    ∃ sys₁ sys₂ evs K, System.run ⟨fresh, none⟩ [.request (.leaseGrant 0 7 60),
        .request (.put { key := [1], lease := 7 }),
        .request (.txn { success := [.put { key := [2] }, .range { key := [1] }] }),
        .request (.deleteRange { key := [3] }), .restart 0] = some sys₁ ∧
      System.run sys₁ [.compactA, .request (.deleteRange { key := [2], prevKv := true }), .compactB,
        .request (.leaseRevoke 7), .compactC, .request (.range { key := [1], rangeEnd := [0] })]
          = some sys₂ ∧
      Mvcc.history evs = System.history ⟨fresh, none⟩
        ([.request (.leaseGrant 0 7 60), .request (.put { key := [1], lease := 7 }),
          .request (.txn { success := [.put { key := [2] }, .range { key := [1] }] }),
          .request (.deleteRange { key := [3] }), .restart 0]
        ++ [.compactA, .request (.deleteRange { key := [2], prevKv := true }), .compactB,
          .request (.leaseRevoke 7), .compactC,
          .request (.range { key := [1], rangeEnd := [0] })]) ∧
      sys₂.store.mvcc = K := by
  have hrun : (System.run ⟨fresh, none⟩ [.request (.leaseGrant 0 7 60),
      .request (.put { key := [1], lease := 7 }),
      .request (.txn { success := [.put { key := [2] }, .range { key := [1] }] }),
      .request (.deleteRange { key := [3] }), .restart 0]).any (fun sys₁ =>
        (System.run sys₁ [.compactA, .request (.deleteRange { key := [2], prevKv := true }),
          .compactB, .request (.leaseRevoke 7), .compactC,
          .request (.range { key := [1], rangeEnd := [0] })]).isSome &&
        decide (Trace.Along System.step System.StepCounts sys₁ [.compactA,
          .request (.deleteRange { key := [2], prevKv := true }), .compactB,
          .request (.leaseRevoke 7), .compactC,
          .request (.range { key := [1], rangeEnd := [0] })])) = true := by
    decide +kernel
  obtain ⟨sys₁, hrun₁, hfacts⟩ := (Option.any_eq_true _ _).mp hrun
  rw [Bool.and_eq_true, decide_eq_true_eq, Option.isSome_iff_exists] at hfacts
  obtain ⟨⟨sys₂, hrun₂⟩, hcounts⟩ := hfacts
  obtain ⟨evs, K, -, hhistory, hmvcc⟩ := store_refines_mvcc hrun₁ hrun₂ (by decide +kernel) hcounts
    (by decide) (by decide) (by decide)
  exact ⟨sys₁, sys₂, evs, K, hrun₁, hrun₂, hhistory, hmvcc⟩

end Rudurru
