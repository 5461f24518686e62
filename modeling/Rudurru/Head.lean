import Rudurru.Storage.Pages
import Rudurru.Leases
import Rudurru.Restart
import Rudurru.History

/-!
# Rudurru.Head

Reading the current revision as an earlier one.

No entry of a store carries a revision above the current one (`AtHead`), whatever was written,
failed, compacted or reopened. So a historical range at the current revision takes every alive
entry as it is, needs no WAL, and answers what a range of the current state answers
(`historical_agrees_at_head`).

Nothing is assumed of the appends here. A request whose append fails has taken its revision and left
the map alone, one that panics may have changed some of its keys; in all of these the entries stay
below the counter (`WritesAt`, `Ahead`). A transaction is followed op by op with the state it began
in (`Midway`), because its error may come after some of its writes.
-/

namespace Rudurru

open Std (ExtTreeMap)
open Prog (exec Within)

/-! ### Writes at a revision -/

/-- Entries that had no revision above `r` have none, for `r` from `rev` on. -/
def SettlesAt (rev : UInt64) (s s' : StoreState) : Prop :=
  ∀ r, rev ≤ r → Settled r s.keyspace → Settled r s'.keyspace

instance (rev : UInt64) : IsPreorder StoreState (SettlesAt rev) where
  refl _ := fun _ _ h => h
  trans _ _ _ h h' := fun r hr hs => h' r hr (h r hr hs)

theorem SettlesAt.of_keys {rev : UInt64} {s s' : StoreState} (h : s'.keys = s.keys) :
    SettlesAt rev s s' := by
  intro r _ hs key ks hks
  refine hs key ks ?_
  rwa [show s'.keyspace.keys = s.keyspace.keys from h] at hks

theorem settles_apply (key value : Bytes) (lease : Int64) (rev : UInt64) :
    Within (SettlesAt rev) (apply key value lease rev none) := by
  refine Prog.within_modifyGet fun s r hr hs => ?_
  exact hs.apply (w := .put key value lease rev (aliveIn s.keys key)) rfl hr

/-- An entry below the bound can be put in. -/
theorem Settled.insert {r : UInt64} {K : Keyspace} (h : Settled r K) {key : Bytes}
    {ks : KeyState} (hks : ks.createRevision ≤ r ∧ ks.modRevision ≤ r ∧ ks.deleteRevision ≤ r)
    (n : Nat) : Settled r ⟨K.keys.insert key ks, n⟩ := by
  intro key' ks' hget
  rcases getElem?_insert_cases hget with ⟨-, rfl⟩ | ⟨-, hget⟩
  · exact hks
  · exact h key' ks' hget

theorem settles_applyDelete (key : Bytes) (rev : UInt64) :
    Within (SettlesAt rev) (applyDelete key rev) := by
  intro s
  unfold applyDelete
  rw [Prog.exec_bind, Prog.exec_get]
  dsimp only
  cases hget : s.keys[key]? with
  | none => exact refl_of (SettlesAt rev) s
  | some prev =>
      dsimp only
      split
      · exact refl_of (SettlesAt rev) s
      · have hstep : SettlesAt rev s { s with
            keys := s.keys.insert key { prev with deleteRevision := rev }
            keyCount := s.keyCount - 1 } := by
          intro r hr hs
          obtain ⟨hcreate, hmod, -⟩ := hs key prev hget
          refine Settled.insert hs ?_ _
          exact ⟨hcreate, hmod, hr⟩
        rw [Prog.exec_bind, Prog.exec_modify]
        dsimp only
        cases withModRevision prev.kvBytes rev with
        | none => exact hstep
        | some blob => exact hstep

/-- A write at a revision: it moves no counter, and leaves no revision above its own. -/
structure WritesAt (rev : UInt64) (s s' : StoreState) : Prop where
  steady : Steady s s'
  settles : SettlesAt rev s s'

section

variable [Crates]

/-- A put writes at its revision, or fails without writing. -/
theorem writes_putAt (req : PutRequest) (rev : UInt64) :
    Within (WritesAt rev) (putAt req rev) := by
  have hsettles : Within (SettlesAt rev) (putAt req rev) :=
    within_putAt (fun _ _ => .of_keys rfl) (settles_apply · · · rev) req
  exact fun s => ⟨steady_putAt req rev s, hsettles s⟩

/-- So does a deletion; a panic may leave it with a part of its keys deleted. -/
theorem writes_deleteRangeAt (req : DeleteRangeRequest) (rev : UInt64) :
    Within (WritesAt rev) (deleteRangeAt req rev) := by
  have hsettles : Within (SettlesAt rev) (deleteRangeAt req rev) :=
    within_deleteRangeAt (fun _ _ => .of_keys rfl) (settles_applyDelete · rev) req
  exact fun s => ⟨steady_deleteRangeAt req rev s, hsettles s⟩

/-! ### Requests -/

/-- What a request does to revisions: it writes at the next one, if it takes it, and compacts no
further than the current one. The two cases of `next` are told apart by the counter, so a request
that is refused is of the first kind, and one that fails in its append of the second. -/
structure Ahead (s s' : StoreState) : Prop where
  compactRev : s'.compactRev = s.compactRev ∨ s'.compactRev ≤ s.currentRevision
  next : s'.nextRev = s.nextRev ∧ s'.keys = s.keys ∨
    s'.nextRev = s.nextRev + 1 ∧ SettlesAt s.nextRev s s'

omit [Crates] in
theorem Ahead.of_same {s s' : StoreState} (hsteady : Steady s s') (hkeys : s'.keys = s.keys) :
    Ahead s s' := ⟨.inl hsteady.1, .inl ⟨hsteady.2, hkeys⟩⟩

/-- The state in a transaction that began in `s₀`. As long as the cursor has no revision nothing was
written; afterwards all writes settle at the one it has. -/
structure Midway (s₀ : StoreState) (c : TxnCursor) (s : StoreState) : Prop where
  compactRev : s.compactRev = s₀.compactRev
  next : c.rev = none ∧ s.nextRev = s₀.nextRev ∧ s.keys = s₀.keys ∨
    c.rev = some s₀.nextRev ∧ s.nextRev = s₀.nextRev + 1 ∧ SettlesAt s₀.nextRev s₀ s

omit [Crates] in
/-- A transaction that stops here has made a request of what it has done so far. -/
theorem Midway.ahead {s₀ s : StoreState} {c : TxnCursor} (h : Midway s₀ c s) : Ahead s₀ s := by
  refine ⟨.inl h.compactRev, ?_⟩
  rcases h.next with ⟨-, hnext⟩ | ⟨-, hnext⟩
  · exact .inl hnext
  · exact .inr hnext

omit [Crates] in
/-- A write at the revision that was taken. -/
theorem ahead_taken {α : Type} {x : StoreM α} (s : StoreState)
    (hx : Within (WritesAt s.nextRev) x) :
    x.Spec { s with nextRev := s.nextRev + 1 } fun _ s' => Ahead s s' := by
  refine (hx.spec _).mono ?_
  intro r s' h
  exact ⟨.inl h.steady.1, .inr ⟨h.steady.2, fun r hr hs => h.settles r hr hs⟩⟩

omit [Crates] in
theorem writeOp_midway {α β : Type} {s₀ s : StoreState} {c : TxnCursor}
    (h : Midway s₀ c s) {x : UInt64 → StoreM α} (g : α → β)
    (hx : ∀ rev, Within (WritesAt rev) (x rev)) :
    (writeOp c x g).Spec s (TxnPost (Midway s₀) (Ahead s₀)) := by
  have hget : ∃ c' s', exec c.getRev s = (.ok (s₀.nextRev, c'), s') ∧ Midway s₀ c' s' ∧
      c'.rev = some s₀.nextRev := by
    rcases h.next with ⟨hrev, hnext, hkeys⟩ | ⟨hrev, hnext, hsettles⟩
    · refine ⟨{ c with rev := some s.nextRev }, { s with nextRev := s.nextRev + 1 }, ?_,
        ⟨h.compactRev, .inr ⟨by rw [← hnext], by rw [← hnext], ?_⟩⟩, by rw [← hnext]⟩
      · simp only [TxnCursor.getRev, hrev, allocRevision, Prog.exec_bind, Prog.exec_modifyGet,
          Prog.exec_pure, hnext]
      · exact .of_keys hkeys
    · refine ⟨c, s, ?_, h, hrev⟩
      simp only [TxnCursor.getRev, hrev, Prog.exec_pure]
  obtain ⟨c', s', hget, hin, hrev⟩ := hget
  have hwrote : ∀ s'', WritesAt s₀.nextRev s' s'' → Midway s₀ c' s'' := by
    intro s'' hw
    refine ⟨hw.steady.1.trans hin.compactRev, .inr ⟨hrev, ?_⟩⟩
    rcases hin.next with ⟨hnone, -⟩ | ⟨-, hnext, hsettles⟩
    · rw [hnone] at hrev
      cases hrev
    · exact ⟨hw.steady.2.trans hnext, fun r hr hs => hw.settles r hr (hsettles r hr hs)⟩
  refine Prog.spec_bind_ok hget (((hx s₀.nextRev).spec s').bind ?_ ?_)
  · intro e s'' hw
    exact .of_error (hwrote s'' hw).ahead e
  · intro a s'' hw
    refine Prog.spec_pure ⟨?_, (hwrote s'' hw).ahead⟩
    intro b c'' heq
    cases heq
    exact hwrote s'' hw

theorem midway_invariant (s₀ : StoreState) : TxnInvariant (Midway s₀) (Ahead s₀) where
  error := fun h => h.ahead
  deferred := fun _ h => ⟨h.compactRev, h.next⟩
  put := fun p h => writeOp_midway h _ fun rev => writes_putAt p rev
  deleteRange := fun d h => writeOp_midway h _ fun rev => writes_deleteRangeAt d rev

/-- Neither a counter nor the map moved. -/
structure Idle (s s' : StoreState) : Prop where
  steady : Steady s s'
  keys : s'.keys = s.keys

instance : IsPreorder StoreState Idle where
  refl s := ⟨refl_of Steady s, rfl⟩
  trans _ _ _ h h' := ⟨trans_of Steady h.steady h'.steady, h'.keys.trans h.keys⟩

omit [Crates] in
theorem idle_leaseGrant (now : Nat) (id ttl : Int64) : Within Idle (leaseGrant now id ttl) :=
  within_leaseGrant (fun _ _ _ => ⟨⟨rfl, rfl⟩, rfl⟩) now id ttl

omit [Crates] in
theorem idle_leaseKeepAlive (now : Nat) (id : Int64) : Within Idle (leaseKeepAlive now id) :=
  within_leaseKeepAlive (fun _ _ _ => ⟨⟨rfl, rfl⟩, rfl⟩) now id

theorem ahead_dropLease (id : Int64) (s : StoreState) :
    (deleteKeysForLease id).Spec { s with leases := s.leases.erase id }
      fun _ s' => Ahead s s' := by
  refine deleteKeysForLease_rule id (fun _ => .of_same ⟨rfl, rfl⟩ rfl) ?_
  intro keys e _ _
  refine (ahead_taken { s with leases := s.leases.erase id } ?_).mono
    fun _ _ h => ⟨h.compactRev, h.next⟩
  intro s'
  have hsettles : Within (SettlesAt s.nextRev) (do
      appendKvBatch (s.deleteRecords keys s.nextRev) e
      applyDeletes keys s.nextRev) :=
    within_deleteBatch (fun _ _ => .of_keys rfl) (settles_applyDelete · s.nextRev) _ keys e
  have huntouched := untouched_deleteBatch (s.deleteRecords keys s.nextRev) keys s.nextRev e
  exact ⟨(huntouched s').steady, hsettles s'⟩

/-- **Every request keeps revisions below the counter**, whatever happens to its appends. By the
kinds of requests: reads and leases are idle, the writes come at the next revision, and a compaction
is refused beyond the current one. -/
theorem answer_ahead {s s' : StoreState} {q : Request} (h : answer s q = some s') :
    Ahead s s' := by
  have hsame : Ahead s s := .of_same (refl_of Steady s) rfl
  refine answer_spec ?_ h
  cases q with
  | range req => exact StoreM.spec_read_bind (fun _ _ => hsame) fun _ _ => Prog.spec_pure hsame
  | put req => exact StoreM.spec_wrap (put_rule req hsame (ahead_taken s (writes_putAt req _)))
  | deleteRange req =>
      exact StoreM.spec_wrap
        (deleteRange_rule req hsame (ahead_taken s (writes_deleteRangeAt req _)))
  | txn req =>
      exact StoreM.spec_wrap ((midway_invariant s).txn_spec req ⟨rfl, .inl ⟨rfl, rfl, rfl⟩⟩)
  | compact revision =>
      refine StoreM.spec_wrap (compact_rule revision (fun _ => hsame) ?_)
      intro _ hreached _
      exact ⟨.inr hreached, .inl ⟨rfl, rfl⟩⟩
  | leaseGrant now id ttl =>
      refine StoreM.spec_wrap (((idle_leaseGrant now id ttl).spec s).mono ?_)
      exact fun _ _ h => .of_same h.steady h.keys
  | leaseRevoke id =>
      exact StoreM.spec_wrap (leaseRevoke_rule id (fun _ => hsame) fun _ => ahead_dropLease id s)
  | leaseKeepAlive now id =>
      refine StoreM.spec_wrap (((idle_leaseKeepAlive now id).spec s).mono ?_)
      exact fun _ _ h => .of_same h.steady h.keys
  | leaseExpire now id =>
      exact StoreM.spec_wrap
        (leaseExpire_rule now id (fun _ => hsame) fun _ _ _ => ahead_dropLease id s)

/-! ### Reachable states -/

/-- Every revision of the store is below `2 ^ 63`, and the counter did not wrap. -/
def StoreState.RevisionsBelow (s : StoreState) : Prop := s.nextRev ≠ 0 ∧ s.nextRev.toNat ≤ 2 ^ 63

instance (s : StoreState) : Decidable s.RevisionsBelow := inferInstanceAs (Decidable (_ ∧ _))

/-- An event in which the given appends fail. -/
def System.stepFaulty (sys : System) (e : List (Option Nat) × Event) : Option System :=
  System.step { sys with store.wal.faults := e.1 } e.2

omit [Crates] in
theorem Settled.mono {r r' : UInt64} {K : Keyspace} (h : Settled r K) (hr : r ≤ r') :
    Settled r' K := by
  intro key ks hks
  obtain ⟨hcreate, hmod, hdelete⟩ := h key ks hks
  exact ⟨UInt64.le_trans hcreate hr, UInt64.le_trans hmod hr, UInt64.le_trans hdelete hr⟩

/-- Replaying a record, whatever it holds. -/
theorem Settled.replay? {r : UInt64} {K K' : Keyspace} {rec : KvWalRecord} (h : Settled r K)
    (hrec : rec.revision ≤ r) (hK' : K.replay? rec = some K') : Settled r K' := by
  obtain rfl | ⟨prev, hprev, rfl⟩ | ⟨kv, n, -, -, rfl⟩ := Keyspace.replay?_cases hK'
  · exact h
  · obtain ⟨hcreate, hmod, -⟩ := h _ prev (aliveIn_eq_some.mp hprev).1
    refine Settled.insert h ?_ _
    exact ⟨hcreate, hmod, hrec⟩
  · refine Settled.insert h ⟨?_, hrec, UInt64.zero_le⟩ n
    rw [createRevision_putEntry]
    cases halive : aliveIn K.keys kv.key with
    | none => exact hrec
    | some prev => exact (h _ prev (aliveIn_eq_some.mp halive).1).1

/-- Replay writes at the revisions of the records. -/
theorem Settled.replayAll? {r : UInt64} {K K' : Keyspace} {recs : List KvWalRecord}
    (h : Settled r K) (hrecs : ∀ rec ∈ recs, rec.revision ≤ r)
    (hK' : K.replayAll? recs = some K') : Settled r K' :=
  Keyspace.replayAll?_invariant hK' h fun _ _ rec hrec h => h.replay? (hrecs rec hrec)

/-- No entry is above the current revision, and neither is the watermark. -/
structure AtHead (s : StoreState) : Prop where
  settled : Settled s.currentRevision s.keyspace
  compacted : s.compactRev ≤ s.currentRevision

omit [Crates] in
theorem currentRevision_of_ne {s : StoreState} (h : s.nextRev ≠ 0) :
    s.currentRevision + 1 = s.nextRev := by
  rw [StoreState.currentRevision, if_neg h]
  exact UInt64.sub_add_cancel _ _

omit [Crates] in
theorem AtHead.of_same {s s' : StoreState} (h : AtHead s) (hkeys : s'.keys = s.keys)
    (hnext : s'.nextRev = s.nextRev) (hcompact : s'.compactRev = s.compactRev) : AtHead s' := by
  have hcur : s'.currentRevision = s.currentRevision := by
    rw [StoreState.currentRevision, StoreState.currentRevision, hnext]
  refine ⟨?_, by rw [hcur, hcompact]; exact h.compacted⟩
  rw [hcur]
  exact SettlesAt.of_keys hkeys _ (UInt64.zero_le) h.settled

omit [Crates] in
/-- A request moves the counter along with what it writes. -/
theorem AtHead.ahead {s s' : StoreState} (h : AtHead s) (hs : s.RevisionsBelow)
    (ha : Ahead s s') : AtHead s' := by
  have hcur := currentRevision_of_ne hs.1
  have hcompact : s'.compactRev ≤ s.currentRevision := by
    rcases ha.compactRev with heq | hle
    · rw [heq]
      exact h.compacted
    · exact hle
  rcases ha.next with ⟨hnext, hkeys⟩ | ⟨hnext, hsettles⟩
  · -- a read or a refused write: the head stays
    have hcur' : s'.currentRevision = s.currentRevision := by
      rw [StoreState.currentRevision, StoreState.currentRevision, hnext]
    refine ⟨?_, by rw [hcur']; exact hcompact⟩
    rw [hcur']
    exact SettlesAt.of_keys hkeys _ (UInt64.zero_le) h.settled
  · have hne : s'.nextRev ≠ 0 := by
      rw [hnext]
      intro hzero
      have := congrArg UInt64.toNat hzero
      rw [UInt64.toNat_add] at this
      have hbelow := hs.2
      simp at this
      omega
    -- a write: the new head is the revision it took, and what it wrote settles there
    have hcur' : s'.currentRevision = s.nextRev := by
      rw [StoreState.currentRevision, if_neg hne, hnext]
      exact UInt64.add_sub_cancel _ _
    have hle : s.currentRevision ≤ s.nextRev := by
      have hpos : 0 < s.nextRev.toNat :=
        Nat.pos_of_ne_zero fun hzero => hs.1 (UInt64.toNat_inj.mp hzero)
      have := toNat_currentRevision hpos
      rw [UInt64.le_iff_toNat_le]
      omega
    refine ⟨?_, by rw [hcur']; exact UInt64.le_trans hcompact hle⟩
    rw [hcur']
    exact hsettles _ (UInt64.le_refl _) (h.settled.mono hle)

/-- A store just opened, on whatever file. -/
theorem atHead_opened {now : Nat} {contents : Bytes} {s : StoreState}
    (h : openStore now contents = .ok s) (hs : s.nextRev ≠ 0) : AtHead s := by
  obtain ⟨recs, n, K, -, hK, rfl⟩ := openStore_eq_ok h
  have hcur : (opened now contents recs K).currentRevision = maxRevision recs 0 := by
    rw [StoreState.currentRevision, if_neg hs]
    exact UInt64.add_sub_cancel _ _
  refine ⟨?_, UInt64.zero_le⟩
  rw [hcur]
  refine (settled_empty _).replayAll? ?_ hK
  exact fun rec hrec => le_maxRevision.2 rec (List.mem_filter.mp hrec).1

/-- **Every event keeps the revisions below the counter**, as long as it does not wrap. -/
theorem AtHead.step {sys sys' : System} {e : List (Option Nat) × Event}
    (h : AtHead sys.store) (hs : sys.store.RevisionsBelow)
    (hstep : sys.stepFaulty e = some sys') (hs' : sys'.store.nextRev ≠ 0) : AtHead sys'.store := by
  obtain ⟨faults, ev⟩ := e
  have h₁ : AtHead { sys.store with wal.faults := faults } := ⟨h.settled, h.compacted⟩
  cases ev with
  | request q =>
      obtain ⟨s', hq, rfl⟩ := Option.map_eq_some_iff.mp hstep
      exact h₁.ahead hs (answer_ahead hq)
  | watch batch =>
      cases hstep
      have hquiet := quiet_flushGlobalBatch { sys.store with wal.faults := faults } batch
      have huntouched := untouched_flushGlobalBatch { sys.store with wal.faults := faults } batch
      exact h₁.of_same (congrArg Keyspace.keys hquiet.keyspace) huntouched.nextRev
        huntouched.compactRev
  | cancelWatch watchId =>
      cases hstep
      exact h₁.of_same rfl rfl rfl
  | compactA | compactB | compactC =>
      simp only [System.stepFaulty, System.step] at hstep
      split at hstep
      all_goals
        cases hstep
        try exact h₁.of_same rfl rfl rfl
  | compactFails =>
      cases hstep
      exact h₁
  | restart now =>
      simp only [System.stepFaulty, System.step, System.boot, Option.map_eq_some_iff] at hstep
      obtain ⟨s', hopen, rfl⟩ := hstep
      exact atHead_opened (Prog.ok_of_toOption hopen) hs'

omit [Crates] in
theorem atHead_fresh : AtHead fresh := ⟨settled_empty _, UInt64.le_refl _⟩

/-! ### The current revision -/

omit [Crates] in
/-- **At the current revision phase 1 takes what is alive**, and nothing is stale. Nothing is later
than the head, so no entry is of the past. -/
theorem AtHead.phase1Classify {s : StoreState} (h : AtHead s) (req : RangeRequest) {key : Bytes}
    {ks : KeyState} (hks : s.keys[key]? = some ks) :
    phase1Classify req s.currentRevision ks
      = if ks.isAlive && passesRevisionFilters req ks then .direct else .skip := by
  obtain ⟨hcreate, hmod, hdelete⟩ := h.settled key ks hks
  unfold Rudurru.phase1Classify
  by_cases halive : ks.deleteRevision = 0
  · have hcreated : ¬ ks.createRevision > s.currentRevision := UInt64.not_lt.mpr hcreate
    rw [KeyState.isAlive, halive]
    simp only [ne_eq, not_true_eq_false, if_false, if_neg hcreated, if_pos hmod]
    cases passesRevisionFilters req ks <;> rfl
  · rw [KeyState.isAlive, decide_eq_false halive, if_pos halive]
    simp only [if_pos hdelete, ite_self]
    rfl

omit [Crates] in
/-- Phase 1 at the current revision finds the current pairs and has nothing for the WAL. -/
theorem AtHead.historicalPhase1 {s : StoreState} (h : AtHead s) {req : RangeRequest}
    (hbound : (resolveRange req.key req.rangeEnd).inverted = false) :
    historicalPhase1 s req.plain s.currentRevision = .ok (s.currentPairs req, []) := by
  have hclass : ∀ e ∈ s.keys.toList.filter fun e =>
      matchesRange (resolveRange req.key req.rangeEnd) e.1,
      Rudurru.phase1Classify req s.currentRevision e.2
        = if e.2.isAlive && passesRevisionFilters req e.2 then .direct else .skip := by
    intro e he
    exact h.phase1Classify req
      (ExtTreeMap.mem_toList_iff_getElem?_eq_some.mp (List.mem_filter.mp he).1)
  have hdirect : classified s req.plain s.currentRevision .direct
      = (s.keys.toList.filter fun e => matchesRange (resolveRange req.key req.rangeEnd) e.1).filter
          fun e => e.2.isAlive && passesRevisionFilters req e.2 := by
    refine List.filter_congr fun e he => ?_
    rw [phase1Classify_plain, hclass e he]
    cases e.2.isAlive && passesRevisionFilters req e.2 <;> rfl
  have hstale : classified s req.plain s.currentRevision .stale = [] := by
    refine List.filter_eq_nil_iff.mpr fun e he => ?_
    rw [phase1Classify_plain, hclass e he]
    cases e.2.isAlive && passesRevisionFilters req e.2 <;> simp
  have hplain : (resolveRange req.plain.key req.plain.rangeEnd).inverted = false := hbound
  rw [historicalPhase1_eq s _ hplain, hdirect, hstale]
  exact congrArg (fun direct => Except.ok (direct, [])) (List.map_congr_left fun _ _ => rfl)

omit [Crates] in
theorem toInt64_pos {r : UInt64} (hpos : 1 ≤ r) (hlt : r.toNat < 2 ^ 63) : r.toInt64 > 0 := by
  have hnat : r.toInt64 = Int64.ofNat r.toNat := by
    rw [← UInt64.toInt64_ofNat', UInt64.ofNat_toNat]
  have hone : 1 ≤ r.toNat := UInt64.le_iff_toNat_le.mp hpos
  rw [gt_iff_lt, Int64.lt_iff_toInt_lt, hnat, Int64.toInt_ofNat_of_lt hlt]
  show (0 : Int) < r.toNat
  omega

/-- **The historical path agrees with the current path at the head**: in every reachable state
and for every range that is not inverted, whatever appends failed on the way. -/
theorem historical_agrees_at_head {evs : List (List (Option Nat) × Event)} {sys : System}
    (hrun : Trace.run System.stepFaulty ⟨fresh, none⟩ evs = some sys)
    (hbelow : Trace.Along System.stepFaulty (fun sys _ => sys.store.RevisionsBelow)
      ⟨fresh, none⟩ evs) (hs : sys.store.RevisionsBelow) (hpos : 1 ≤ sys.store.currentRevision)
    {req : RangeRequest} (hbound : (resolveRange req.key req.rangeEnd).inverted = false)
    (hreserve : sys.store.reserve req = .ok ()) :
    range sys.store { req with revision := sys.store.currentRevision.toInt64 }
      = range sys.store { req with revision := 0 } := by
  have hstep : ∀ (s : System) e s', (s.store.nextRev ≠ 0 → AtHead s.store) →
      s.store.RevisionsBelow → s.stepFaulty e = some s' → s'.store.nextRev ≠ 0 →
        AtHead s'.store := fun s e s' h hP hstep hne => (h hP.1).step hP hstep hne
  have h := Trace.invariant hstep (fun _ => atHead_fresh) hbelow hrun hs.1
  have hcur : sys.store.currentRevision.toNat < 2 ^ 63 := by
    have hpos : 0 < sys.store.nextRev.toNat :=
      Nat.pos_of_ne_zero fun hzero => hs.1 (UInt64.toNat_inj.mp hzero)
    have := toNat_currentRevision hpos
    have := hs.2
    omega
  by_cases hkey : req.key = []
  · simp only [range, checkKey, hkey, if_true]
    rfl
  · have hrev : sys.store.currentRevision.toInt64.toUInt64 = sys.store.currentRevision :=
      UInt64.toUInt64_toInt64 _
    have hhistorical : range sys.store
          { req with revision := sys.store.currentRevision.toInt64 }
        = rangeHistorical sys.store { req with revision := sys.store.currentRevision.toInt64 }
            sys.store.currentRevision.toInt64.toUInt64 :=
      range_eq_historical hkey (toInt64_pos hpos hcur) (by rw [hrev]; exact h.compacted)
        (by rw [hrev]; exact UInt64.le_refl _)
    have hcurrent : range sys.store { req with revision := 0 }
        = rangeCurrent sys.store { req with revision := 0 } :=
      range_eq_current hkey Int64.lt_irrefl
    have hpage : rangeCurrent sys.store { req with revision := 0 }
        = (sys.store.currentFound req).map (page req sys.store.header) :=
      rangeCurrent_eq_page sys.store { req with revision := 0 }
    -- at the head nothing is stale: every alive entry answers directly, and the WAL is not read
    have hphase : historicalPhase1 sys.store
        ({ req with revision := sys.store.currentRevision.toInt64 } : RangeRequest).plain
        sys.store.currentRevision = .ok (sys.store.currentPairs req, []) :=
      h.historicalPhase1 hbound
    rw [hhistorical, hcurrent, hrev, rangeHistorical_of_direct hphase, hpage,
      currentFound_eq sys.store hbound, hreserve]
    rfl

end

/-- A key deleted and created again, another one deleted, and an append that failed. -/
theorem historical_agrees_at_head_recreated :
    ∃ sys, Trace.run System.stepFaulty ⟨fresh, none⟩
        [([], .request (.put { key := [1], value := [2] })),
          ([some 3], .request (.put { key := [2], value := [3] })),
          ([], .request (.put { key := [3], value := [4] })),
          ([], .request (.deleteRange { key := [1], rangeEnd := [4] })),
          ([], .request (.put { key := [1], value := [5] }))] = some sys ∧
      range sys.store
          { key := [1], rangeEnd := [0], sortOrder := 2, sortTarget := 3
            revision := sys.store.currentRevision.toInt64 }
        = range sys.store
          { key := [1], rangeEnd := [0], sortOrder := 2, sortTarget := 3, revision := 0 } := by
  have hrun : ((Trace.run System.stepFaulty ⟨fresh, none⟩
        [([], .request (.put { key := [1], value := [2] })),
          ([some 3], .request (.put { key := [2], value := [3] })),
          ([], .request (.put { key := [3], value := [4] })),
          ([], .request (.deleteRange { key := [1], rangeEnd := [4] })),
          ([], .request (.put { key := [1], value := [5] }))]).any fun sys =>
        decide (sys.store.RevisionsBelow ∧ 1 ≤ sys.store.currentRevision ∧
          sys.store.reserve { key := [1], rangeEnd := [0] } = .ok ())) = true := by
    decide +kernel
  obtain ⟨sys, hsys, hfacts⟩ := (Option.any_eq_true _ _).mp hrun
  obtain ⟨hbelow, hpos, hreserve⟩ := of_decide_eq_true hfacts
  exact ⟨sys, hsys, @historical_agrees_at_head _ _ sys hsys (by decide +kernel) hbelow hpos
    { key := [1], rangeEnd := [0], sortOrder := 2, sortTarget := 3 } (by decide) hreserve⟩

end Rudurru
