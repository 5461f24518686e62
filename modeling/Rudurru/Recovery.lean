import Rudurru.Reference
import Rudurru.SystemSound

/-!
# Rudurru.Recovery

Restarting from the WAL: what `Store::open` rebuilds from a file the server wrote.

Three statements of increasing distance from the undisturbed case: the file as the run left it
(`replay_refines_live`), the file cut anywhere by a crash (`crash_recovers_whole_requests`),
and a store that starts on a file with a torn tail and goes on writing
(`reopen_restores_keys`). Each holds on a condition, and each is followed by a run that breaks
the condition and loses data.

All three rest on one fact about scans, that a file of whole records and a torn rest gives back the
records (`Storage.WalSound`), and one about replays, that the records of a run repeat the run
(`Keyspace.Run.replay`). What they add is where the cut falls. A request of one record is there or
not, so a cut is the end of some request; a request of several can be cut in the middle. And a store
that opens a file with a torn tail appends behind the tail, where the next scan does not get to.
-/

namespace Rudurru

open Prog (exec)

/-- A store on an empty WAL. -/
def fresh : StoreState := .new (.open [])

section

variable [Crates]

theorem openStore_nil (now : Nat) : openStore now [] = .ok fresh := by
  have hscan : scanKvFile [] 0 = ([], .ok 0) := rfl
  rw [openStore_of_scan hscan rfl]
  rfl

variable [LawfulCrates]

/-! ### Replaying what was committed -/

theorem wellFormed_of_fits {ws : List Write} (hfit : ∀ w ∈ ws, w.record.Fits) :
    ∀ r ∈ ws.map Write.record, r.WellFormed := by
  intro r hr
  obtain ⟨w, hw, rfl⟩ := List.mem_map.mp hr
  exact (Write.record_spec (hfit w hw)).1

/-- The records a run of requests writes carry revisions from `next_rev` on. -/
theorem revision_of_served {s s' : StoreState} {qs : List Request} (hs : s.wal.faults = [])
    (hlog : s.wal.log = []) (h : serve s qs = some s') (hfit : ∀ rec ∈ s'.wal.log, rec.Fits)
    (hlt : s.nextRev.toNat + qs.length < 2 ^ 64) :
    ∀ rec ∈ s'.wal.log,
      s.nextRev.toNat ≤ rec.revision.toNat ∧ rec.revision.toNat < s'.nextRev.toNat := by
  obtain ⟨-, -, ws, hws, hrev⟩ := serve_revisions hs h hlt
  intro rec hrec
  have hrecFit := hfit rec hrec
  rw [hws.log, hlog, List.nil_append] at hrec
  obtain ⟨w, hw, rfl⟩ := List.mem_map.mp hrec
  rw [(Write.record_spec hrecFit).2.2]
  exact hrev w hw

/-- Opening a file that holds some records followed by those of a run. -/
theorem openStore_append_run {recs : List KvWalRecord} {ws : List Write} {K K' : Keyspace}
    {contents : Bytes} {n : Nat}
    (hscan : scanKvFile contents 0 = (recs ++ ws.map Write.record, .ok n))
    (hK : Keyspace.empty.replayAll? (replayed recs) = some K) (hrun : Keyspace.Run K ws K')
    (hfit : ∀ w ∈ ws, w.record.Fits) (hrev : ∀ w ∈ ws, w.record.revision ≠ 0) (now : Nat) :
    openStore now contents = .ok (opened now contents (recs ++ ws.map Write.record) K') := by
  have hkeep : replayed (ws.map Write.record) = ws.map Write.record := by
    refine replayed_of_nonzero fun r hr => ?_
    obtain ⟨w, hw, rfl⟩ := List.mem_map.mp hr
    exact hrev w hw
  refine openStore_of_scan hscan ?_
  rw [replayed, List.filter_append, ← replayed, ← replayed, hkeep, Keyspace.replayAll?_append, hK]
  exact hrun.replay hfit

/-! ### The file as the run left it -/

/-- **Replay refines the live store.** Scanning the WAL of any run of requests and applying the
records one by one to an empty store rebuilds the live map and the live count, provided every
record the run wrote fits the format. -/
theorem replay_refines_live {qs : List Request} {s : StoreState} (h : serve fresh qs = some s)
    (hfit : ∀ rec ∈ s.wal.log, rec.Fits) :
    ∃ recs n s', scanKvFile s.wal.contents 0 = (recs, .ok n) ∧
      exec (recs.forM applyRecord) fresh = (.ok (), s') ∧
      s'.keys = s.keys ∧ s'.keyCount = s.keyCount := by
  obtain ⟨ws, hws⟩ := serve_commits rfl h
  have hlog : s.wal.log = ws.map Write.record := hws.log
  have hwsFit : ∀ w ∈ ws, w.record.Fits := fun w hw =>
    hfit w.record (by rw [hlog]; exact List.mem_map_of_mem hw)
  have hscan := scanKvFile_serializeAll (wellFormed_of_fits hwsFit)
  have hcontents : s.wal.contents = serializeAll (ws.map Write.record) := hws.contents
  rw [← hcontents] at hscan
  -- the records of a run, applied to an empty store, take it along the run
  refine ⟨_, _, fresh.withKeyspace s.keyspace, hscan, ?_, rfl, rfl⟩
  exact exec_forM_applyRecord rfl (hws.run.replay hwsFit)

end

theorem replay_refines_live_update_delete :
    ∃ s, serve fresh [.put { key := [1], value := [2] }, .put { key := [1], value := [3] },
        .deleteRange { key := [1] }] = some s ∧
      ∃ recs n s', scanKvFile s.wal.contents 0 = (recs, .ok n) ∧
        exec (recs.forM applyRecord) fresh = (.ok (), s') ∧
        s'.keys = s.keys ∧ s'.keyCount = s.keyCount := by
  have hfit : (serve fresh [.put { key := [1], value := [2] }, .put { key := [1], value := [3] },
      .deleteRange { key := [1] }]).any (fun s => s.wal.log.all (·.Fits)) = true := by
    decide +kernel
  obtain ⟨s, hs, hfit⟩ := (Option.any_eq_true _ _).mp hfit
  exact ⟨s, hs, replay_refines_live hs (by simpa using hfit)⟩

/-- A put of one key and `2 ^ 32 - 43` bytes makes a record of exactly `2 ^ 32` bytes, whose
`rec_len` wraps to zero. -/
theorem scanKvFile_oversized [Crates] {value : Bytes} (h : value.length = 2 ^ 32 - 43) :
    scanKvFile (putRecord [1] value 0 1 none).serialize 0
      = ([], .error ⟨.invalidData, "rec_len too small"⟩) := by
  have hlen : (encodeKv [1] value 1 1 1 0).1.length = 30 + value.length := by
    rw [length_encodeKv, show (kvHead [1] 1).length = 10 by decide]
    simp only [kvTail, List.length_append, length_encodeOverlongU32, List.length_singleton,
      show (encodeVarint (1 : Int64).toUInt64).length = 1 by decide,
      show (encodeVarint (0 : Int64).toUInt64).length = 1 by decide]
    omega
  have hrec : (putRecord [1] value 0 1 none).recLen = 0 := by
    show UInt32.ofNat (kvHeaderSize + (encodeKv [1] value 1 1 1 0).1.length + kvCrcSize) = 0
    rw [hlen, h]
    rfl
  have hstep : scanKvStep (putRecord [1] value 0 1 none).serialize
      = .fail ⟨.invalidData, "rec_len too small"⟩ := by
    rw [KvWalRecord.serialize_eq, scanKvStep]
    simp only [u32FromLeBytes_toLeBytes, hrec, kvHeaderSize, kvCrcSize]
    rfl
  rw [scanKvFile, List.drop_zero, FramedLog.scan, hstep]

/-- The limit is needed: a put within every limit the server enforces leaves a file that cannot
be scanned. -/
theorem oversized_put_breaks_replay :
    ∃ s, serve fresh [.put { key := [1], value := List.replicate (2 ^ 32 - 43) 0 }] = some s ∧
      ¬ ∃ recs n s', scanKvFile s.wal.contents 0 = (recs, .ok n) ∧
        exec (recs.forM applyRecord) fresh = (.ok (), s') ∧
        s'.keys = s.keys ∧ s'.keyCount = s.keyCount := by
  have hserve : ∀ value : Bytes, ∃ s, serve fresh [.put { key := [1], value }] = some s ∧
      s.wal.contents = (putRecord [1] value 0 1 none).serialize :=
    fun value => ⟨_, rfl, rfl⟩
  obtain ⟨s, hs, hcontents⟩ := hserve (List.replicate (2 ^ 32 - 43) 0)
  refine ⟨s, hs, ?_⟩
  rintro ⟨recs, n, s', hscan, -⟩
  rw [hcontents, scanKvFile_oversized List.length_replicate] at hscan
  cases hscan

/-! ### The file cut by a crash -/

section

variable [Crates]

/-- The request appends at most one record. -/
def WritesAtMostOne (s : StoreState) (q : Request) : Prop :=
  ∀ s' ∈ answer s q, s'.wal.log.length ≤ s.wal.log.length + 1

instance (s : StoreState) (q : Request) : Decidable (WritesAtMostOne s q) :=
  inferInstanceAs (Decidable (∀ s' ∈ answer s q, _))

/-- When no request writes more than one record, every prefix of the writes is what some
number of whole requests committed. -/
theorem serve_boundaries {s s' : StoreState} {qs : List Request} (hs : s.wal.faults = [])
    (h : serve s qs = some s') (hone : Trace.Along answer WritesAtMostOne s qs) :
    ∃ ws, Commits s ws s' ∧ ∀ j ≤ ws.length, ∃ k ≤ qs.length, ∃ sk,
      serve s (qs.take k) = some sk ∧ Commits s (ws.take j) sk := by
  induction qs generalizing s with
  | nil =>
      cases h
      refine ⟨[], .refl hs, fun j hj => ⟨0, by simp, _, rfl, ?_⟩⟩
      rw [List.take_nil]
      exact .refl hs
  | cons q qs ih =>
      obtain ⟨s₁, hq, hqs⟩ := serve_cons.mp h
      obtain ⟨ws, hws⟩ := answer_served hs hq
      obtain ⟨vs, hvs, hbound⟩ := ih hws.faults hqs (hone.2 s₁ hq)
      have hlen : ws.length ≤ 1 := by
        have := hone.1 s₁ hq
        rw [hws.log, List.length_append, List.length_map] at this
        omega
      refine ⟨ws ++ vs, hws.toCommits.trans hvs, fun j hj => ?_⟩
      by_cases hj₀ : j < ws.length
      · -- the one write of the first request is not in the prefix, so nothing is
        obtain rfl : j = 0 := by omega
        refine ⟨0, by simp, s, rfl, ?_⟩
        rw [List.take_zero]
        exact .refl hs
      · obtain ⟨k, hk, sk, hsk, hcommit⟩ := hbound (j - ws.length) (by
          rw [List.length_append] at hj; omega)
        refine ⟨k + 1, by simp; omega, sk, ?_, ?_⟩
        · rw [List.take_succ_cons]
          exact serve_cons.mpr ⟨s₁, hq, hsk⟩
        · rw [List.take_append, List.take_of_length_le (by omega)]
          exact hws.toCommits.trans hcommit

variable [LawfulCrates]

/-- **A crash recovers whole requests**, as long as no request writes more than one record:
whatever prefix of the file survives, the rebuilt map is the live map after some number of the
requests. -/
theorem crash_recovers_whole_requests {qs : List Request} {s : StoreState}
    (h : serve fresh qs = some s) (hone : Trace.Along answer WritesAtMostOne fresh qs)
    (hfit : ∀ rec ∈ s.wal.log, rec.Fits) (hrev : qs.length + 1 < 2 ^ 64) {n : Nat}
    (hn : n ≤ s.wal.contents.length) (now : Nat) :
    ∃ k ≤ qs.length, ∃ sk s', serve fresh (qs.take k) = some sk ∧
      openStore now (s.wal.contents.take n) = .ok s' ∧ s'.keys = sk.keys := by
  obtain ⟨ws, hws, hbound⟩ := serve_boundaries rfl h hone
  have hlog : s.wal.log = ws.map Write.record := hws.log
  have hcontents : s.wal.contents = serializeAll (ws.map Write.record) := hws.contents
  have hmem : ∀ w ∈ ws, w.record ∈ s.wal.log := fun w hw => by
    rw [hlog]
    exact List.mem_map_of_mem hw
  have hnonzero : ∀ rec ∈ s.wal.log, rec.revision ≠ 0 := by
    intro rec hrec hzero
    have hbounds := revision_of_served rfl rfl h hfit
      (by rw [show fresh.nextRev.toNat = 1 from rfl]; omega) rec hrec
    rw [hzero, show fresh.nextRev.toNat = 1 from rfl] at hbounds
    simp at hbounds
  -- the scan of the prefix returns a prefix of the records
  rw [hcontents] at hn ⊢
  obtain ⟨j, hj, hscan⟩ := scanKvFile_take
    (wellFormed_of_fits fun w hw => hfit _ (hmem w hw)) hn
  rw [← List.map_take] at hscan
  obtain ⟨k, hk, sk, hsk, hcommit⟩ := hbound j (by simpa using hj)
  have hempty : Keyspace.empty.replayAll? (replayed []) = some fresh.keyspace := rfl
  refine ⟨k, hk, sk, _, hsk, openStore_append_run hscan hempty hcommit.run ?_ ?_ now, rfl⟩
  · exact fun w hw => hfit _ (hmem w (List.mem_of_mem_take hw))
  · exact fun w hw => hnonzero _ (hmem w (List.mem_of_mem_take hw))

end

theorem crash_recovers_whole_requests_cut :
    ∃ s, serve fresh [.put { key := [1], value := [2] },
        .put { key := [1], value := [3] }] = some s ∧
      50 ≤ s.wal.contents.length ∧ ∃ k ≤ 2, ∃ sk s',
        serve fresh ([.put { key := [1], value := [2] }, .put { key := [1], value := [3] }].take k)
          = some sk ∧
        openStore 0 (s.wal.contents.take 50) = .ok s' ∧ s'.keys = sk.keys := by
  have hrun : (serve fresh
      [.put { key := [1], value := [2] }, .put { key := [1], value := [3] }]).any
      (fun s => s.wal.log.all (·.Fits) && decide (50 ≤ s.wal.contents.length)) = true := by
    decide +kernel
  obtain ⟨s, hs, hfit⟩ := (Option.any_eq_true _ _).mp hrun
  rw [Bool.and_eq_true, decide_eq_true_eq, List.all_eq_true] at hfit
  refine ⟨s, hs, hfit.2, ?_⟩
  exact crash_recovers_whole_requests hs (by decide +kernel) (by simpa using hfit.1) (by simp)
    hfit.2 0

/-- The condition is needed: a transaction of two puts, cut between its records, comes back as
the first put alone. -/
theorem txn_recovers_in_part :
    ∃ s, serve fresh [.txn { success := [.put { key := [1] }, .put { key := [2] }] }] = some s ∧
      43 ≤ s.wal.contents.length ∧ ¬ ∃ k sk s',
        serve fresh ([.txn { success := [.put { key := [1] }, .put { key := [2] }] }].take k)
          = some sk ∧
        openStore 0 (s.wal.contents.take 43) = .ok s' ∧ s'.keys = sk.keys := by
  have hrun : (serve fresh
      [.txn { success := [.put { key := [1] }, .put { key := [2] }] }]).any (fun s =>
        decide (43 ≤ s.wal.contents.length) && s.keys.contains [2] &&
          (openStore 0 (s.wal.contents.take 43)).toOption.all
            fun s' => s'.keys.contains [1] && !s'.keys.contains [2]) = true := by
    decide +kernel
  obtain ⟨s, hs, hfacts⟩ := (Option.any_eq_true _ _).mp hrun
  simp only [Bool.and_eq_true, decide_eq_true_eq] at hfacts
  obtain ⟨⟨hlen, htwo⟩, hopened⟩ := hfacts
  refine ⟨s, hs, hlen, ?_⟩
  rintro ⟨k, sk, s', hsk, hopen, hkeys⟩
  rw [hopen] at hopened
  simp only [Except.toOption, Option.all_some, Bool.and_eq_true, hkeys] at hopened
  cases k with
  | zero =>
      cases hsk
      exact absurd hopened.1 (by decide)
  | succ k =>
      rw [List.take_succ_cons, List.take_nil] at hsk
      rw [hs] at hsk
      cases hsk
      simp [htwo] at hopened

/-! ### A file with a torn tail -/

section

variable [Crates] [LawfulCrates]

/-- **Going on after a torn tail.** A store opened on whole records followed by a torn one,
that then serves requests, is rebuilt by the next open, provided that there was no torn tail
after all or that nothing was appended behind it. -/
theorem reopen_restores_keys {rs : List KvWalRecord} {torn : KvWalRecord} {t : Bytes}
    (hrs : ∀ r ∈ rs, r.WellFormed) (htorn : torn.WellFormed) (ht : t <+: torn.serialize)
    (hlt : t.length < torn.serialize.length) {now : Nat} {s₀ s : StoreState}
    (hopen : openStore now (serializeAll rs ++ t) = .ok s₀) {qs : List Request}
    (hserve : serve s₀ qs = some s) (hcond : t = [] ∨ s.wal.log = [])
    (hfit : ∀ rec ∈ s.wal.log, rec.Fits) (hpos : s₀.nextRev ≠ 0)
    (hrev : s₀.nextRev.toNat + qs.length < 2 ^ 64) (now' : Nat) :
    ∃ s', openStore now' s.wal.contents = .ok s' ∧ s'.keys = s.keys := by
  have hstop := kvFraming.next_torn htorn ht hlt
  have hscan := scanKvFile_append_of_stop hrs hstop
  obtain ⟨recs, n, K, hscan', hK, rfl⟩ := openStore_eq_ok hopen
  rw [hscan] at hscan'
  cases hscan'
  obtain ⟨ws, hws⟩ := serve_commits rfl hserve
  have hlog : s.wal.log = ws.map Write.record := hws.log
  have hcontents : s.wal.contents = serializeAll rs ++ t ++ serializeAll (ws.map Write.record) :=
    hws.contents
  have hmem : ∀ w ∈ ws, w.record ∈ s.wal.log := fun w hw => by
    rw [hlog]
    exact List.mem_map_of_mem hw
  have hwsFit : ∀ w ∈ ws, w.record.Fits := fun w hw => hfit _ (hmem w hw)
  have hnonzero : ∀ w ∈ ws, w.record.revision ≠ 0 := by
    intro w hw hzero
    have hbounds := revision_of_served rfl rfl hserve hfit hrev _ (hmem w hw)
    rw [hzero] at hbounds
    exact hpos (UInt64.toNat_inj.mp (by simpa using hbounds.1))
  -- without a torn tail the file is one log; with one, nothing was written behind it
  have hscanAll : ∃ n, scanKvFile s.wal.contents 0 = (rs ++ ws.map Write.record, .ok n) := by
    rcases hcond with rfl | hempty
    · have hwf : ∀ r ∈ rs ++ ws.map Write.record, r.WellFormed := by
        intro r hr
        rcases List.mem_append.mp hr with hr | hr
        · exact hrs r hr
        · exact wellFormed_of_fits hwsFit r hr
      rw [hcontents, List.append_nil, ← serializeAll_append]
      exact ⟨_, scanKvFile_serializeAll hwf⟩
    · rw [hlog] at hempty
      rw [hcontents, hempty, List.append_nil]
      exact ⟨_, by simpa [serializeAll, FramedLog.encodeAll] using hscan⟩
  obtain ⟨n, hscanAll⟩ := hscanAll
  exact ⟨_, openStore_append_run hscanAll hK hws.run hwsFit hnonzero now', rfl⟩

end

theorem reopen_restores_keys_untorn :
    ∃ s₀ s, openStore 0 (serializeAll [putRecord [1] [2] 0 1 none] ++ []) = .ok s₀ ∧
      serve s₀ [.put { key := [1], value := [3] }, .deleteRange { key := [1] }] = some s ∧
      ∃ s', openStore 0 s.wal.contents = .ok s' ∧ s'.keys = s.keys := by
  have hrun : ((openStore 0 (serializeAll [putRecord [1] [2] 0 1 none] ++ [])).toOption.any
      fun s₀ => decide (s₀.nextRev = 2) &&
        (serve s₀ [.put { key := [1], value := [3] }, .deleteRange { key := [1] }]).any
          fun s => s.wal.log.all (·.Fits)) = true := by
    decide +kernel
  obtain ⟨s₀, hs₀, hrun⟩ := (Option.any_eq_true _ _).mp hrun
  rw [Bool.and_eq_true, decide_eq_true_eq] at hrun
  obtain ⟨hnext, hrun⟩ := hrun
  obtain ⟨s, hs, hfit⟩ := (Option.any_eq_true _ _).mp hrun
  have hopen := Prog.ok_of_toOption hs₀
  have hwf : (putRecord [1] [2] 0 1 none).WellFormed :=
    (Write.record_spec (w := .put [1] [2] 0 1 none) (by decide +kernel)).1
  refine ⟨s₀, s, hopen, hs, ?_⟩
  exact reopen_restores_keys (by simpa using hwf) hwf List.nil_prefix (by decide +kernel) hopen hs
    (.inl rfl) (by simpa using hfit) (by rw [hnext]; decide) (by rw [hnext]; simp) 0

/-- The condition is needed: one byte left by a failed append hides every later write from the
next open. -/
theorem torn_tail_hides_put :
    ∃ s₀ s s', openStore 0 (serializeAll [] ++ (putRecord [1] [2] 0 1 none).serialize.take 1)
        = .ok s₀ ∧
      serve s₀ [.put { key := [1], value := [3] }] = some s ∧
      openStore 0 s.wal.contents = .ok s' ∧ s'.keys ≠ s.keys := by
  have hrun : ((openStore 0 (serializeAll []
      ++ (putRecord [1] [2] 0 1 none).serialize.take 1)).toOption.any fun s₀ =>
        (serve s₀ [.put { key := [1], value := [3] }]).any fun s => s.keys.contains [1] &&
          (openStore 0 s.wal.contents).toOption.any fun s' => !s'.keys.contains [1]) = true := by
    decide +kernel
  obtain ⟨s₀, hs₀, hrun⟩ := (Option.any_eq_true _ _).mp hrun
  obtain ⟨s, hs, hrun⟩ := (Option.any_eq_true _ _).mp hrun
  rw [Bool.and_eq_true] at hrun
  obtain ⟨hlive, hrun⟩ := hrun
  obtain ⟨s', hs', hlost⟩ := (Option.any_eq_true _ _).mp hrun
  refine ⟨s₀, s, s', Prog.ok_of_toOption hs₀, hs, Prog.ok_of_toOption hs', ?_⟩
  intro hkeys
  rw [hkeys, hlive] at hlost
  cases hlost

end Rudurru
