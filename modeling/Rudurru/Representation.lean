import Rudurru.Forgery
import Rudurru.History
import Rudurru.Restart

/-!
# Rudurru.Representation

What an entry of the map looks like, in every state of a server that never swaps its WAL file:
its revisions are ordered, its version counts from one, its blob is the encoding of its fields;
and `key_count` is the number of alive entries (`representation_invariant`).

Along the writes of a run this is an induction (`Keyspace.Bounded.apply`), in which revisions may
repeat but not go back. A restart replays the same writes, so it finds the same entries.

A swap is left out on purpose: a compacted file loses the creation revisions and the versions
(`compaction_keeps_metadata` in `Restart`), so the entry after the next restart is not the one
before. Everything else that happens only adds writes.
-/

namespace Rudurru

open Std (ExtTreeMap)
open Prog (exec)

/-! ### Counting entries -/

section

variable {α β : Type} {cmp : α → α → Ordering} [Std.TransCmp cmp] [Std.LawfulEqCmp cmp]

theorem filter_insert (m : ExtTreeMap α β cmp) (k : α) (v : β) (p : β → Bool) :
    (m.insert k v).filter (fun _ v => p v)
      = if p v then (m.filter fun _ v => p v).insert k v
        else (m.filter fun _ v => p v).erase k := by
  refine ExtTreeMap.ext_getElem? fun k' => ?_
  rw [ExtTreeMap.getElem?_filter', ExtTreeMap.getElem?_insert]
  cases hp : p v with
  | true =>
      rw [if_pos rfl, ExtTreeMap.getElem?_insert, ExtTreeMap.getElem?_filter']
      split
      · rw [Option.filter_some, if_pos hp]
      · rfl
  | false =>
      rw [if_neg Bool.false_ne_true, ExtTreeMap.getElem?_erase, ExtTreeMap.getElem?_filter']
      split
      · rw [Option.filter_some, if_neg (by rw [hp]; exact Bool.false_ne_true)]
      · rfl

/-- How many entries satisfy `p`, after one of them is replaced. -/
theorem length_filter_insert (m : ExtTreeMap α β cmp) (k : α) (v : β) (p : β → Bool) :
    ((m.insert k v).toList.filter fun e => p e.2).length =
      match (m[k]?.filter p).isSome, p v with
      | true, true => (m.toList.filter fun e => p e.2).length
      | true, false => (m.toList.filter fun e => p e.2).length - 1
      | false, true => (m.toList.filter fun e => p e.2).length + 1
      | false, false => (m.toList.filter fun e => p e.2).length := by
  have hsize : ∀ m : ExtTreeMap α β cmp,
      (m.toList.filter fun e => p e.2).length = (m.filter fun _ v => p v).size := by
    intro m
    rw [← ExtTreeMap.length_toList, ExtTreeMap.toList_filter]
  have hcontains : (m.filter fun _ v => p v).contains k = (m[k]?.filter p).isSome := by
    rw [ExtTreeMap.contains_eq_isSome_getElem?, ExtTreeMap.getElem?_filter']
  rw [hsize, hsize, filter_insert]
  cases hp : p v with
  | true =>
      rw [if_pos rfl, ExtTreeMap.size_insert, hcontains]
      cases (m[k]?.filter p).isSome <;> rfl
  | false =>
      rw [if_neg Bool.false_ne_true, ExtTreeMap.size_erase, hcontains]
      cases (m[k]?.filter p).isSome <;> rfl

end

/-! ### Entries -/

/-- What holds of the entry of a key at revision `current`. -/
structure KeyState.Represented (ks : KeyState) (key : Bytes) (current : UInt64) : Prop where
  create_pos : 1 ≤ ks.createRevision
  create_le_mod : ks.createRevision ≤ ks.modRevision
  mod_le : ks.modRevision ≤ current
  version_pos : 1 ≤ ks.version
  deleted : ks.deleteRevision = 0 ∨
    ks.modRevision ≤ ks.deleteRevision ∧ ks.deleteRevision ≤ current
  blob : ks.kvBytes = makeKvBytes key ks

theorem KeyState.Represented.mono {ks : KeyState} {key : Bytes} {r r' : UInt64}
    (h : ks.Represented key r) (hle : r ≤ r') : ks.Represented key r' :=
  { h with
    mod_le := UInt64.le_trans h.mod_le hle
    deleted := by
      rcases h.deleted with halive | ⟨hmod, hdel⟩
      · exact .inl halive
      · exact .inr ⟨hmod, UInt64.le_trans hdel hle⟩ }

namespace Keyspace

/-- What holds of a keyspace after `n` writes, the last of them at revision `r`. -/
structure Bounded (r : UInt64) (n : Nat) (K : Keyspace) : Prop where
  entries : ∀ (key : Bytes) (ks : KeyState), K.keys[key]? = some ks → ks.Represented key r
  versions : ∀ (key : Bytes) (ks : KeyState), K.keys[key]? = some ks → ks.version.toInt ≤ n
  keyCount : K.keyCount = (aliveEntries K.keys).length

theorem bounded_empty (r : UInt64) : Bounded r 0 .empty where
  entries := by simp [empty]
  versions := by simp [empty]
  keyCount := rfl

/-- The version a put writes counts on from the one it finds. -/
theorem version_succ {v : Int64} {n : Nat} (hpos : 1 ≤ v) (hle : v.toInt ≤ n)
    (hn : n + 1 < 2 ^ 63) : 1 ≤ v + 1 ∧ (v + 1).toInt ≤ (n + 1 : Nat) := by
  have hv : (1 : Int) ≤ v.toInt := by simpa [Int64.le_iff_toInt_le] using hpos
  have hsucc : (v + 1).toInt = v.toInt + 1 := by
    rw [Int64.toInt_add, Int64.toInt_one]
    exact Int.bmod_eq_of_le (by omega) (by omega)
  rw [Int64.le_iff_toInt_le, hsucc, Int64.toInt_one]
  omega

theorem represented_putEntry {K : Keyspace} {key value : Bytes} {lease : Int64} {r rev : UInt64}
    {n : Nat} (h : Bounded r n K) (hr : r ≤ rev) (hpos : rev ≠ 0) (hn : n + 1 < 2 ^ 63) :
    (putEntry K.keys key value lease rev none).Represented key rev ∧
      (putEntry K.keys key value lease rev none).version.toInt ≤ (n + 1 : Nat) := by
  have hone : 1 ≤ rev := by
    rw [UInt64.le_iff_toNat_le, UInt64.toNat_one]
    have : rev.toNat ≠ 0 := fun h => hpos (UInt64.toNat_inj.mp h)
    omega
  cases halive : aliveIn K.keys key with
  | none =>
      simp only [putEntry, halive]
      refine ⟨⟨hone, UInt64.le_refl _, UInt64.le_refl _, Int64.le_refl 1, .inl rfl, rfl⟩, ?_⟩
      show (1 : Int64).toInt ≤ _
      rw [Int64.toInt_one]
      omega
  | some p =>
      -- the new entry goes on where the alive one was
      have hget := (aliveIn_eq_some.mp halive).1
      have hp := h.entries key p hget
      obtain ⟨hversion, hle⟩ := version_succ hp.version_pos (h.versions key p hget) hn
      simp only [putEntry, halive]
      exact ⟨⟨hp.create_pos, UInt64.le_trans (UInt64.le_trans hp.create_le_mod hp.mod_le) hr,
        UInt64.le_refl _, hversion, .inl rfl, rfl⟩, hle⟩

/-- **A write keeps the entries represented**, at a revision that does not go back. A put makes an
entry at its own revision, or goes on from one that is represented; a deletion adds a later revision
to it. -/
theorem Bounded.apply {K : Keyspace} {w : Write} {r : UInt64} {n : Nat} (h : Bounded r n K)
    (hw : K.Accepts w) (hr : r ≤ w.rev) (hpos : w.rev ≠ 0) (hn : n + 1 < 2 ^ 63) :
    Bounded w.rev (n + 1) (K.apply w) := by
  -- the entries that the write leaves alone keep their bounds
  have hkept : ∀ (key : Bytes) (ks : KeyState), K.keys[key]? = some ks →
      ks.Represented key w.rev ∧ ks.version.toInt ≤ (n + 1 : Nat) := by
    intro key ks hks
    have := h.versions key ks hks
    exact ⟨(h.entries key ks hks).mono hr, by omega⟩
  cases w with
  | put k value lease rev prev =>
      have hput : (putEntry K.keys k value lease rev none).Represented k rev ∧ _ :=
        represented_putEntry h hr hpos hn
      have hall : ∀ (key : Bytes) (ks : KeyState),
          (K.keys.insert k (putEntry K.keys k value lease rev none))[key]? = some ks →
            ks.Represented key rev ∧ ks.version.toInt ≤ (n + 1 : Nat) := by
        intro key ks hks
        rcases getElem?_insert_cases hks with ⟨rfl, rfl⟩ | ⟨-, hks⟩
        · exact hput
        · exact hkept key ks hks
      refine ⟨fun key ks hks => (hall key ks hks).1, fun key ks hks => (hall key ks hks).2, ?_⟩
      -- `key_count` goes up with a key that was not alive
      show _ = (aliveEntries (K.keys.insert k _)).length
      rw [aliveEntries, length_filter_insert, isAlive_putEntry, ← aliveEntries, ← h.keyCount]
      show (if (aliveIn K.keys k).isNone then _ else _) = _
      rw [← aliveIn]
      cases aliveIn K.keys k <;> rfl
  | delete k rev prev =>
      obtain ⟨hget, halive⟩ := aliveIn_eq_some.mp hw.1
      have hprev := h.entries k prev hget
      have hversion := h.versions k prev hget
      have hmod : prev.modRevision ≤ rev := UInt64.le_trans hprev.mod_le hr
      have hall : ∀ (key : Bytes) (ks : KeyState),
          (K.keys.insert k { prev with deleteRevision := rev })[key]? = some ks →
            ks.Represented key rev ∧ ks.version.toInt ≤ (n + 1 : Nat) := by
        intro key ks hks
        rcases getElem?_insert_cases hks with ⟨rfl, rfl⟩ | ⟨-, hks⟩
        · refine ⟨⟨hprev.create_pos, hprev.create_le_mod, hmod, hprev.version_pos,
            .inr ⟨hmod, UInt64.le_refl _⟩, hprev.blob⟩, ?_⟩
          show prev.version.toInt ≤ _
          omega
        · exact hkept key ks hks
      refine ⟨fun key ks hks => (hall key ks hks).1, fun key ks hks => (hall key ks hks).2, ?_⟩
      have hdead : ({ prev with deleteRevision := rev } : KeyState).isAlive = false :=
        decide_eq_false hpos
      -- and down with the key that dies
      show _ = (aliveEntries (K.keys.insert k _)).length
      rw [aliveEntries, length_filter_insert, hdead, ← aliveEntries, ← h.keyCount, ← aliveIn, hw.1]
      rfl

/-- The same along a run whose revisions do not go back. -/
theorem Run.bounded {K K' : Keyspace} {ws : List Write} (h : Run K ws K') :
    ∀ {r r' : UInt64} {n : Nat}, Bounded r n K → r ≤ r' →
      ws.Pairwise (fun w v => w.rev ≤ v.rev) →
      (∀ w ∈ ws, r ≤ w.rev ∧ w.rev ≠ 0 ∧ w.rev ≤ r') → n + ws.length < 2 ^ 63 →
        Bounded r' (n + ws.length) K' := by
  induction h with
  | nil =>
      intro r r' n hb hle _ _ _
      exact { hb with entries := fun key ks hks => (hb.entries key ks hks).mono hle }
  | @cons K K' w ws hw _ ih =>
      intro r r' n hb hle hsorted hrev hn
      rw [List.pairwise_cons] at hsorted
      rw [List.length_cons] at hn ⊢
      obtain ⟨hr, hpos, hr'⟩ := hrev w (by simp)
      have hnext := ih (hb.apply hw hr hpos (by omega)) hr' hsorted.2
        (fun v hv => ⟨hsorted.1 v hv, (hrev v (by simp [hv])).2⟩) (by omega)
      rwa [show n + 1 + ws.length = n + (ws.length + 1) by omega] at hnext

end Keyspace

/-! ### Servers that keep their WAL -/

/-- What holds of the store: its entries are represented, and `key_count` counts the alive ones. -/
structure StoreState.Represented (s : StoreState) : Prop where
  entries : ∀ (key : Bytes) (ks : KeyState), s.keys[key]? = some ks →
    ks.Represented key s.currentRevision
  keyCount : s.keyCount = (s.keys.toList.filter fun e => e.2.deleteRevision = 0).length

/-- Does the event swap the WAL file? -/
def Event.isSwap : Event → Bool
  | .compactC => true
  | _ => false

section

variable [Crates]

/-- The WAL holds the records of `ws`, which made the keyspace, at revisions that do not go back. -/
structure Logged (ws : List Write) (sys : System) : Prop where
  faults : sys.store.wal.faults = []
  nextRev_pos : 0 < sys.store.nextRev.toNat
  contents : sys.store.wal.contents = serializeAll (ws.map Write.record)
  run : Keyspace.Run .empty ws sys.store.keyspace
  fits : ∀ w ∈ ws, w.record.Fits
  sorted : ws.Pairwise (fun w v => w.rev ≤ v.rev)
  below : ∀ w ∈ ws, w.rev ≠ 0 ∧ w.rev.toNat < sys.store.nextRev.toNat

theorem logged_fresh : Logged [] ⟨fresh, none⟩ where
  faults := rfl
  nextRev_pos := by decide
  contents := rfl
  run := .nil
  fits := by simp
  sorted := .nil
  below := by simp

theorem Logged.quiet {ws : List Write} {sys : System} (h : Logged ws sys) {s' : StoreState}
    (hq : Quiet sys.store s') (c : Option Compaction) : Logged ws ⟨s', c⟩ where
  faults := by rw [hq.wal, h.faults]
  nextRev_pos := by rw [hq.nextRev]; exact h.nextRev_pos
  contents := by rw [hq.wal, h.contents]
  run := by rw [hq.keyspace]; exact h.run
  fits := h.fits
  sorted := h.sorted
  below := by rw [hq.nextRev]; exact h.below

/-- A request writes at the counter, above everything in the file. -/
theorem Logged.served {vs : List Write} {sys : System} (h : Logged vs sys) {s' : StoreState}
    {ws : List Write} (hserved : Served sys.store ws s') (hfit : ∀ w ∈ ws, w.record.Fits)
    (hcount : sys.store.nextRev.toNat + 1 < 2 ^ 64) :
    Logged (vs ++ ws) { sys with store := s' } := by
  obtain ⟨hle, -, hrev⟩ := hserved.toNat_nextRev hcount
  have hpos := h.nextRev_pos
  refine ⟨hserved.faults, Nat.lt_of_lt_of_le hpos hle, ?_, h.run.append hserved.run, ?_, ?_, ?_⟩
  · rw [hserved.contents, h.contents, List.map_append, serializeAll_append]
  · intro w hw
    rcases List.mem_append.mp hw with hw | hw
    · exact h.fits w hw
    · exact hfit w hw
  · refine List.pairwise_append.mpr ⟨h.sorted, ?_, ?_⟩
    · refine List.pairwise_of_forall_mem_list ?_
      intro w hw v hv
      rw [hserved.rev_eq w hw, hserved.rev_eq v hv]
      exact UInt64.le_refl _
    · intro v hv w hw
      rw [hserved.rev_eq w hw, UInt64.le_iff_toNat_le]
      exact Nat.le_of_lt (h.below v hv).2
  · intro w hw
    rcases List.mem_append.mp hw with hw | hw
    · exact ⟨(h.below w hw).1, Nat.lt_of_lt_of_le (h.below w hw).2 hle⟩
    · obtain ⟨hwr, hnext⟩ := hrev w hw
      refine ⟨?_, ?_⟩
      · intro hzero
        rw [← hwr, hzero] at hpos
        exact Nat.lt_irrefl _ hpos
      · show w.rev.toNat < s'.nextRev.toNat
        rw [hwr, hnext]
        exact Nat.lt_succ_self _

variable [LawfulCrates]

/-- A restart replays the writes. -/
theorem Logged.restart {ws : List Write} {sys : System} (h : Logged ws sys) {now : Nat}
    {s' : StoreState} (hopen : openStore now sys.store.wal.contents = .ok s') :
    Logged ws ⟨s', none⟩ := by
  obtain ⟨-, -, hcontents, hrun, hfits, hsorted, hbelow⟩ := h
  have hrecord : ∀ rec ∈ ws.map Write.record, ∃ w ∈ ws, w.rev = rec.revision := by
    intro rec hrec
    obtain ⟨w, hw, rfl⟩ := List.mem_map.mp hrec
    exact ⟨w, hw, (Write.record_spec (hfits w hw)).2.2.symm⟩
  have hscan := scanKvFile_serializeAll (wellFormed_of_fits hfits)
  rw [← hcontents] at hscan
  have hnonzero : ∀ w ∈ ws, w.record.revision ≠ 0 := by
    intro w hw
    rw [(Write.record_spec (hfits w hw)).2.2]
    exact (hbelow w hw).1
  have hnone : Keyspace.empty.replayAll? (replayed []) = some .empty := rfl
  have hopened := openStore_append_run hscan hnone hrun hfits hnonzero now
  rw [hopened] at hopen
  cases hopen
  have hlater : ∀ rec ∈ ws.map Write.record, rec.revision.toNat + 1 < 2 ^ 64 := by
    intro rec hrec
    obtain ⟨w, hw, heq⟩ := hrecord rec hrec
    have hw' := (hbelow w hw).2
    have hcounter := sys.store.nextRev.toNat_lt
    rw [← heq]
    omega
  obtain ⟨hpos, hlt⟩ := opened_lt hlater now sys.store.wal.contents sys.store.keyspace
  refine ⟨rfl, hpos, hcontents, hrun, hfits, hsorted, ?_⟩
  intro w hw
  refine ⟨(hbelow w hw).1, ?_⟩
  have hw' := hlt w.record (List.mem_map_of_mem hw)
  rw [(Write.record_spec (hfits w hw)).2.2] at hw'
  exact hw'

/-- **Every event but a swap keeps the log**, and only a request adds to it. A restart replays the
log, and gets the keyspace that the same writes made. -/
theorem Logged.step {ws : List Write} {sys sys' : System} {ev : Event} (h : Logged ws sys)
    (hok : sys.StepOk ev) (hev : ev.isSwap = false) (hstep : sys.step ev = some sys') :
    ∃ vs, Logged (ws ++ vs) sys' := by
  obtain ⟨hfit, hcounts⟩ := hok
  cases System.moves_of_step h.faults hstep with
  | @request q vs s' hq hserved =>
      refine ⟨vs, h.served hserved ?_ hcounts.2⟩
      intro w hw
      refine hfit s' hq _ ?_
      rw [hserved.log]
      exact List.mem_append_right _ (List.mem_map_of_mem hw)
  | watch hquiet => exact ⟨[], by simpa using h.quiet hquiet _⟩
  | cancelWatch hquiet => exact ⟨[], by simpa using h.quiet hquiet _⟩
  | compactA | compactB | compactFails => exact ⟨[], by simpa using h.quiet (.refl _) _⟩
  | compactC => cases hev
  | restart hopen => exact ⟨[], by simpa using h.restart hopen⟩

/-- The entries that such a log makes. -/
theorem Logged.represented {ws : List Write} {sys : System} (h : Logged ws sys)
    (hsize : sys.store.wal.contents.length < 2 ^ 63) : sys.store.Represented := by
  have hlength : ws.length ≤ sys.store.wal.contents.length := by
    have := kvFraming.length_le_length_encodeAll (wellFormed_of_fits h.fits)
    rw [h.contents, serializeAll]
    simpa using this
  have hcurrent := toNat_currentRevision h.nextRev_pos
  have hrange : ∀ w ∈ ws, 0 ≤ w.rev ∧ w.rev ≠ 0 ∧ w.rev ≤ sys.store.currentRevision := by
    intro w hw
    refine ⟨UInt64.zero_le, (h.below w hw).1, ?_⟩
    have := (h.below w hw).2
    rw [UInt64.le_iff_toNat_le]
    omega
  have hbounded := h.run.bounded (Keyspace.bounded_empty 0) UInt64.zero_le h.sorted hrange
    (by omega)
  exact ⟨hbounded.entries, hbounded.keyCount⟩

/-- **The representation invariant.** While the records written fit their format, the counters do
not wrap, and the WAL file is never swapped, every entry has `1 ≤ create_revision ≤ mod_revision`
up to the current revision, a version from 1 on, a `delete_revision` that is zero or not before
the last modification, and a blob that encodes its fields; and `key_count` is the number of alive
entries. -/
theorem representation_invariant {evs : List Event} {sys : System}
    (hrun : System.run ⟨fresh, none⟩ evs = some sys)
    (hok : Trace.Along System.step System.StepOk ⟨fresh, none⟩ evs)
    (hswap : ∀ ev ∈ evs, ev.isSwap = false) (hsize : sys.store.wal.contents.length < 2 ^ 63) :
    sys.store.Represented := by
  have hstep : ∀ s ev s', (∃ ws, Logged ws s) → s.StepOk ev ∧ ev.isSwap = false →
      s.step ev = some s' → ∃ ws, Logged ws s' := by
    intro s ev s' hs hP hs'
    obtain ⟨ws, hws⟩ := hs
    obtain ⟨vs, hvs⟩ := hws.step hP.1 hP.2 hs'
    exact ⟨ws ++ vs, hvs⟩
  obtain ⟨ws, hws⟩ := Trace.invariant hstep ⟨[], logged_fresh⟩ (hok.and_mem hswap) hrun
  exact hws.represented hsize

end

/-- A key is put, updated and deleted, a lease takes another one with it, and the server
restarts. -/
theorem representation_invariant_restarted :
    ∃ sys, System.run ⟨fresh, none⟩ [.request (.leaseGrant 0 7 60),
        .request (.put { key := [1], lease := 7 }), .request (.put { key := [2], value := [3] }),
        .request (.txn { success := [.put { key := [2] }, .deleteRange { key := [3] }] }),
        .request (.deleteRange { key := [2] }), .request (.leaseExpire 60000000000 7),
        .restart 0, .request (.put { key := [2] })] = some sys ∧
      sys.store.keys.size = 2 ∧ sys.store.Represented := by
  have hrun : (System.run ⟨fresh, none⟩ [.request (.leaseGrant 0 7 60),
      .request (.put { key := [1], lease := 7 }), .request (.put { key := [2], value := [3] }),
      .request (.txn { success := [.put { key := [2] }, .deleteRange { key := [3] }] }),
      .request (.deleteRange { key := [2] }), .request (.leaseExpire 60000000000 7),
      .restart 0, .request (.put { key := [2] })]).any (fun sys =>
        decide (sys.store.keys.size = 2) &&
          decide (sys.store.wal.contents.length < 2 ^ 63)) = true := by
    decide +kernel
  obtain ⟨sys, hsys, hfacts⟩ := (Option.any_eq_true _ _).mp hrun
  rw [Bool.and_eq_true, decide_eq_true_eq, decide_eq_true_eq] at hfacts
  exact ⟨sys, hsys, hfacts.1,
    representation_invariant hsys (by decide +kernel) (by decide) hfacts.2⟩

/-- A put that makes a record which does not fit lets a client forge the record of a key: after a
restart its blob does not encode its fields. -/
theorem restart_admits_forged_record :
    ∃ sys, System.run ⟨fresh, none⟩ (forging (.new 0 [2] [] 1 4 7 0)) = some sys ∧
      ¬ sys.store.Represented := by
  have hreplay : (Keyspace.empty.replayAll?
      (replayed (forgedLog (.new 0 [2] [] 1 4 7 0)))).any (fun K =>
        K.keys[([2] : Bytes)]?.any fun ks => ks.kvBytes ≠ makeKvBytes [2] ks) = true := by
    decide +kernel
  obtain ⟨K, hK, hbroken⟩ := (Option.any_eq_true _ _).mp hreplay
  obtain ⟨ks, hks, hne⟩ := (Option.any_eq_true _ _).mp hbroken
  obtain ⟨contents, hrun⟩ := forging_restarts
    ⟨by decide, by decide +kernel, by decide, by decide⟩ (by decide +kernel) hK
  refine ⟨_, hrun, ?_⟩
  intro h
  exact of_decide_eq_true hne (h.entries [2] ks hks).blob

end Rudurru
