import Rudurru.Compaction
import Rudurru.Lib.KeyedLog
import Rudurru.Storage.RangeSound

/-!
# Rudurru.History

Reading at an earlier revision (`range_historical`) against the state the store had when that
revision was current (`LiveAt`).

The later life of a key is one of few (`Since`): nothing happened, it was updated or deleted
within the lifetime it was in, or it is in a lifetime that began afterwards. Phase 1 gets the
first ones right from the entry alone and sends the updated ones to the WAL. Of a key that was
recreated it knows nothing about the lifetime before, and depending on its `rebirth` flag either
drops it (`historical_range_complete`) or asks the WAL and, when the key was not alive at the
time, answers with what it is now (`historical_range_sound`).

The history of a store is cut at the revision asked for (`CutAt`): the writes up to it led to a
state `s₁`, which is what should be answered with, and the writes after it led to the state that is
asked. `Since.apply` carries the description of each key along the second part. What phase 2 reads
from the file are the writes of the first part, so it rebuilds the blobs of `s₁`
(`scanWalRange_eq`).

Either way an answer is a list of entries (`Answer`). Both theorems read it off: one asks whether a
key of `s₁` may be missing, the other whether a key may be there that `s₁` did not have.
-/

namespace Rudurru

open Std (ExtTreeMap)
open Prog (exec)

/-! ### The later life of a key

What writes after `r` may have made of the entry that a key had at `r`. The cases are those that
phase 1 can and cannot tell apart.
-/

/-- No entry has a revision above `r`. -/
def Settled (r : UInt64) (K : Keyspace) : Prop :=
  ∀ (key : Bytes) (ks : KeyState), K.keys[key]? = some ks →
    ks.createRevision ≤ r ∧ ks.modRevision ≤ r ∧ ks.deleteRevision ≤ r

theorem createRevision_putEntry {keys : ExtTreeMap Bytes KeyState} {key value : Bytes}
    {lease : Int64} {rev : UInt64} {blob : Option Bytes} :
    (putEntry keys key value lease rev blob).createRevision
      = ((aliveIn keys key).map (·.createRevision)).getD rev := rfl

/-- What becomes of an entry of `keys` when a write inserts `ks` at `key`. -/
theorem getElem?_insert_cases {κ β : Type} {cmp : κ → κ → Ordering} [Std.TransCmp cmp]
    [Std.LawfulEqCmp cmp] {m : ExtTreeMap κ β cmp} {key key' : κ} {v v' : β}
    (h : (m.insert key v)[key']? = some v') :
    (key' = key ∧ v' = v) ∨ (key' ≠ key ∧ m[key']? = some v') := by
  rw [ExtTreeMap.getElem?_insert] at h
  split at h
  · next heq =>
      obtain rfl := Std.LawfulEqCmp.eq_of_compare heq
      cases h
      exact .inl ⟨rfl, rfl⟩
  · next hne =>
      refine .inr ⟨?_, h⟩
      rintro rfl
      exact hne Std.ReflCmp.compare_self

theorem Settled.apply {r : UInt64} {K : Keyspace} {w : Write} (h : Settled r K)
    (hw : K.Accepts w) (hrev : w.rev ≤ r) : Settled r (K.apply w) := by
  intro key ks hks
  cases w with
  | put k value lease rev prev =>
      rcases getElem?_insert_cases hks with ⟨rfl, rfl⟩ | ⟨-, hks⟩
      · refine ⟨?_, hrev, UInt64.zero_le⟩
        rw [createRevision_putEntry]
        cases halive : aliveIn K.keys key with
        | none => exact hrev
        | some p => exact (h key p (aliveIn_eq_some.mp halive).1).1
      · exact h key ks hks
  | delete k rev prev =>
      rcases getElem?_insert_cases hks with ⟨rfl, rfl⟩ | ⟨-, hks⟩
      · obtain ⟨hcreate, hmod, -⟩ := h key prev (aliveIn_eq_some.mp hw.1).1
        exact ⟨hcreate, hmod, hrev⟩
      · exact h key ks hks

theorem settled_empty (r : UInt64) : Settled r .empty := by
  intro key ks hks
  simp [Keyspace.empty] at hks

/-- What may have become, by writes after `r`, of a key's entry at `r`. -/
inductive Since (r : UInt64) (then? : Option KeyState) : Option KeyState → Prop
  /-- Nothing happened. -/
  | same : Since r then? then?
  /-- It was deleted. -/
  | deleted {a : KeyState} {rev : UInt64} : then? = some a → a.isAlive = true → r < rev →
      Since r then? (some { a with deleteRevision := rev })
  /-- It was updated, and perhaps then deleted. -/
  | updated {a ks : KeyState} : then? = some a → a.isAlive = true →
      ks.createRevision = a.createRevision → r < ks.modRevision →
      (ks.deleteRevision = 0 ∨ r < ks.deleteRevision) → Since r then? (some ks)
  /-- It is in a lifetime that began after `r`. -/
  | reborn {ks : KeyState} : r < ks.createRevision → Since r then? (some ks)

theorem not_isAlive_of_lt {ks : KeyState} {r rev : UInt64} (h : r < rev) :
    ({ ks with deleteRevision := rev } : KeyState).isAlive = false := by
  have hne : rev ≠ 0 := by
    rintro rfl
    exact absurd h UInt64.not_lt_zero
  simp [KeyState.isAlive, hne]

/-- A put keeps the description, from the entry of its key. -/
theorem Since.put {r : UInt64} {then? : Option KeyState} {keys : ExtTreeMap Bytes KeyState}
    {key : Bytes} (h : Since r then? keys[key]?) (value : Bytes) (lease : Int64) {rev : UInt64}
    (hrev : r < rev) : Since r then? (some (putEntry keys key value lease rev none)) := by
  cases halive : aliveIn keys key with
  | none =>
      refine .reborn ?_
      rw [createRevision_putEntry, halive]
      exact hrev
  | some p =>
      obtain ⟨hget, hp⟩ := aliveIn_eq_some.mp halive
      have hcreate : (putEntry keys key value lease rev none).createRevision
          = p.createRevision := by
        rw [createRevision_putEntry, halive]
        rfl
      rw [hget] at h
      cases h with
      | same => exact .updated rfl hp hcreate hrev (.inl rfl)
      | deleted ha _ hlt => simp [not_isAlive_of_lt hlt] at hp
      | updated ha haa hc _ _ => exact .updated ha haa (hcreate.trans hc) hrev (.inl rfl)
      | reborn hlt => exact .reborn (hcreate ▸ hlt)

/-- So does a deletion. -/
theorem Since.delete {r : UInt64} {then? : Option KeyState} {p : KeyState}
    (h : Since r then? (some p)) (hp : p.isAlive = true) {rev : UInt64} (hrev : r < rev) :
    Since r then? (some { p with deleteRevision := rev }) := by
  cases h with
  | same => exact .deleted rfl hp hrev
  | deleted _ _ hlt => simp [not_isAlive_of_lt hlt] at hp
  | updated ha haa hc hmod _ => exact .updated ha haa hc hmod (.inr hrev)
  | reborn hlt => exact .reborn hlt

/-- **Every write after `r` keeps the description of every key.** The cases of `Since` against a put
and a deletion of the key; writes to other keys leave it alone. -/
theorem Since.apply {r : UInt64} {K₁ K : Keyspace} {w : Write}
    (h : ∀ key : Bytes, Since r K₁.keys[key]? K.keys[key]?) (hw : K.Accepts w) (hrev : r < w.rev) :
    ∀ key : Bytes, Since r K₁.keys[key]? (K.apply w).keys[key]? := by
  intro key
  cases w with
  | put k value lease rev prev =>
      show Since r _ (K.keys.insert k _)[key]?
      by_cases hk : k = key
      · subst hk
        rw [ExtTreeMap.getElem?_insert_self]
        exact (h k).put value lease hrev
      · rw [ExtTreeMap.getElem?_insert, if_neg (by simpa using hk)]
        exact h key
  | delete k rev prev =>
      show Since r _ (K.keys.insert k _)[key]?
      by_cases hk : k = key
      · subst hk
        obtain ⟨hget, hp⟩ := aliveIn_eq_some.mp hw.1
        rw [ExtTreeMap.getElem?_insert_self]
        exact (hget ▸ h k).delete hp hrev
      · rw [ExtTreeMap.getElem?_insert, if_neg (by simpa using hk)]
        exact h key

/-! ### Phase 1 against the state at `r`

Phase 1 sees the entries of now. Of the classes it makes, the direct one is right for keys that are
as they were, and the stale one for keys that have changed within their lifetime.
-/

/-- A request without revision filters. -/
structure Unfiltered (req : RangeRequest) : Prop where
  minMod : req.minModRevision ≤ 0
  maxMod : req.maxModRevision ≤ 0
  minCreate : req.minCreateRevision ≤ 0
  maxCreate : req.maxCreateRevision ≤ 0

theorem Unfiltered.passes {req : RangeRequest} (h : Unfiltered req) (ks : KeyState) :
    passesRevisionFilters req ks = true := by
  simp [passesRevisionFilters, h.minMod, h.maxMod, h.minCreate, h.maxCreate]

/-- The entry covers `r`: its lifetime began by then and had not ended. -/
def KeyState.Covers (ks : KeyState) (r : UInt64) : Prop :=
  ks.createRevision ≤ r ∧ (ks.deleteRevision = 0 ∨ r < ks.deleteRevision)

/-- Phase 1 answers directly with entries that cover `r` and were not modified afterwards. -/
theorem phase1Classify_eq_direct {req : RangeRequest} (h : Unfiltered req) {r : UInt64}
    {ks : KeyState} :
    phase1Classify req r ks = .direct ↔ ks.Covers r ∧ ks.modRevision ≤ r := by
  unfold phase1Classify KeyState.Covers
  simp only [h.passes ks, gt_iff_lt, ← UInt64.not_lt]
  by_cases hdead : ks.deleteRevision = 0 <;> by_cases hcreate : r < ks.createRevision <;>
    by_cases hmod : r < ks.modRevision <;> by_cases hdelete : r < ks.deleteRevision <;>
    by_cases hrebirth : ks.rebirth = true <;>
    simp [hdead, hcreate, hmod, hdelete, hrebirth]

/-- It sends to the WAL those that were modified, and the alive ones in a lifetime after `r`
that has a `rebirth` flag. -/
theorem phase1Classify_eq_stale {req : RangeRequest} (h : Unfiltered req) {r : UInt64}
    {ks : KeyState} :
    phase1Classify req r ks = .stale ↔ (ks.Covers r ∧ r < ks.modRevision) ∨
      (ks.isAlive = true ∧ r < ks.createRevision ∧ ks.rebirth = true) := by
  unfold phase1Classify KeyState.Covers KeyState.isAlive
  simp only [h.passes ks, gt_iff_lt, ← UInt64.not_lt]
  by_cases hdead : ks.deleteRevision = 0 <;> by_cases hcreate : r < ks.createRevision <;>
    by_cases hmod : r < ks.modRevision <;> by_cases hdelete : r < ks.deleteRevision <;>
    by_cases hrebirth : ks.rebirth = true <;>
    simp [hdead, hcreate, hmod, hdelete, hrebirth]

/-- An entry that covers `r` belongs to a key that was alive then, and has its blob of then
unless it was modified since. -/
theorem Since.alive_of_covers {r : UInt64} {then? : Option KeyState} {ks : KeyState}
    (h : Since r then? (some ks)) (hset : ∀ a, then? = some a → a.deleteRevision ≤ r)
    (hcovers : ks.Covers r) :
    ∃ a, then? = some a ∧ a.isAlive = true ∧ (ks.modRevision ≤ r → ks.kvBytes = a.kvBytes) := by
  obtain ⟨hcreate, hdelete⟩ := hcovers
  cases h with
  | same =>
      refine ⟨ks, rfl, ?_, fun _ => rfl⟩
      rcases hdelete with hzero | hlt
      · simp [KeyState.isAlive, hzero]
      · exact absurd hlt (UInt64.not_lt.mpr (hset ks rfl))
  | deleted ha halive _ => exact ⟨_, ha, halive, fun _ => rfl⟩
  | updated ha halive _ hmod _ =>
      exact ⟨_, ha, halive, fun hle => absurd hmod (UInt64.not_lt.mpr hle)⟩
  | reborn hlt => exact absurd hlt (UInt64.not_lt.mpr hcreate)

/-- A key that was alive at `r` still has an entry, which covers `r` unless it was reborn. -/
theorem Since.covers_of_alive {r : UInt64} {then? now? : Option KeyState} {a : KeyState}
    (h : Since r then? now?) (ha : then? = some a) (halive : a.isAlive = true) :
    ∃ ks, now? = some ks ∧ (ks.createRevision ≤ r → ks.Covers r) := by
  cases h with
  | same =>
      exact ⟨a, ha, fun hcreate => ⟨hcreate, .inl (by simpa [KeyState.isAlive] using halive)⟩⟩
  | deleted _ _ hlt => exact ⟨_, rfl, fun hcreate => ⟨hcreate, .inr hlt⟩⟩
  | updated _ _ _ _ hdelete => exact ⟨_, rfl, fun hcreate => ⟨hcreate, hdelete⟩⟩
  | reborn hlt => exact ⟨_, rfl, fun hcreate => absurd hlt (UInt64.not_lt.mpr hcreate)⟩

/-! ### The WAL, read key by key -/

/-- What a record leaves its key with: nothing, or a revision and a blob. -/
def recordData (rec : KvWalRecord) : Option (UInt64 × Bytes) :=
  if rec.deleted then none else some (rec.revision, rec.kvBytes)

/-- The same of an entry. -/
def KeyState.written (ks : KeyState) : UInt64 × Bytes := (ks.modRevision, ks.kvBytes)

/-- What a list of records leaves a key with. -/
abbrev lastData (recs : List KvWalRecord) (key : Bytes) : Option (UInt64 × Bytes) :=
  KeyedLog.last KvWalRecord.key recordData recs (some key)

/-- One record of a scan, seen from a key of its range. -/
theorem getElem?_scanWalRecord {bound : RangeBound} {r : UInt64} {m : ExtTreeMap Bytes Bytes}
    {rec : KvWalRecord} (hrev : rec.revision ≤ r) {key : Bytes}
    (hmatch : matchesRange bound key = true) :
    (scanWalRecord bound r m rec)[key]?
      = if rec.key = some key then (recordData rec).map Prod.snd else m[key]? := by
  unfold scanWalRecord recordData
  cases hkey : rec.key with
  | none => simp
  | some recKey =>
      dsimp only
      by_cases hk : recKey = key
      · subst hk
        rw [hmatch, if_neg (by simp), if_pos hrev, if_pos rfl]
        split
        · rw [ExtTreeMap.getElem?_erase_self]
          rfl
        · rw [ExtTreeMap.getElem?_insert_self]
          rfl
      · have hne : some recKey ≠ some key := by simpa using hk
        rw [if_neg hne, if_pos hrev]
        split
        · rfl
        · split
          · rw [ExtTreeMap.getElem?_erase, if_neg (by simpa using hk)]
          · rw [ExtTreeMap.getElem?_insert, if_neg (by simpa using hk)]

/-- Later records are skipped. -/
theorem scanWalRecord_of_gt {bound : RangeBound} {r : UInt64} {m : ExtTreeMap Bytes Bytes}
    {rec : KvWalRecord} (hrev : ¬ rec.revision ≤ r) : scanWalRecord bound r m rec = m := by
  unfold scanWalRecord
  split
  · rfl
  · rw [if_neg hrev]
    split <;> rfl

/-- A scan only collects keys of its range. -/
theorem matches_scanWalRecord {bound : RangeBound} {r : UInt64} {m : ExtTreeMap Bytes Bytes}
    (h : AllEntries (fun key _ => matchesRange bound key = true) m) (rec : KvWalRecord) :
    AllEntries (fun key _ => matchesRange bound key = true) (scanWalRecord bound r m rec) := by
  unfold scanWalRecord
  split
  · exact h
  · next recKey _ =>
      split
      · exact h
      · next hmatch =>
          split
          · split
            · intro key kv hget
              rw [ExtTreeMap.getElem?_erase] at hget
              split at hget
              · cases hget
              · exact h key kv hget
            · exact h.insert (by simpa using hmatch)
          · exact h

/-- **A scan reads the records up to its target revision**, for the keys of its range. -/
theorem getElem?_scan (bound : RangeBound) (r : UInt64) (recs : List KvWalRecord) (key : Bytes) :
    (recs.foldl (scanWalRecord bound r) ∅)[key]? = if matchesRange bound key
      then (lastData (recs.filter (·.revision ≤ r)) key).map Prod.snd else none := by
  split
  · next hmatch =>
      induction recs using List.reverseRecOn with
      | nil => simp
      | append_singleton recs rec ih =>
          rw [List.foldl_append, List.foldl_cons, List.foldl_nil, List.filter_append]
          by_cases hrev : rec.revision ≤ r
          · rw [List.filter_cons_of_pos (by simpa using hrev), List.filter_nil, lastData,
              KeyedLog.last_concat, getElem?_scanWalRecord hrev hmatch, ih]
            split <;> rfl
          · rw [List.filter_cons_of_neg (by simpa using hrev), List.filter_nil, List.append_nil,
              scanWalRecord_of_gt hrev, ih]
  · next hmatch =>
      have hall : AllEntries (fun key _ => matchesRange bound key = true)
          (recs.foldl (scanWalRecord bound r) ∅) := by
        refine AllEntries.foldl (fun m rec _ hm => matches_scanWalRecord hm rec) ?_
        intro key kv hget
        simp at hget
      cases hget : (recs.foldl (scanWalRecord bound r) ∅)[key]? with
      | none => rfl
      | some blob => exact absurd (hall key blob hget) hmatch

/-- A write leaves other keys alone. -/
theorem aliveIn_apply_of_ne {K : Keyspace} {w : Write} {key : Bytes} (h : w.key ≠ key) :
    aliveIn (K.apply w).keys key = aliveIn K.keys key := by
  rw [aliveIn, Keyspace.getElem?_apply_of_ne h]
  rfl

section

variable [Crates] [LawfulCrates]

/-- It leaves its own key with what its record says. -/
theorem written_apply_self {K : Keyspace} {w : Write} (hw : K.Accepts w) (hfit : w.record.Fits)
    (hpos : w.rev ≠ 0) :
    (aliveIn (K.apply w).keys w.key).map KeyState.written = recordData w.record := by
  obtain ⟨-, -, hrev⟩ := Write.record_spec hfit
  cases w with
  | put k value lease rev prev =>
      obtain rfl : aliveIn K.keys k = prev := hw
      rw [recordData, hrev, Write.key, Keyspace.apply, aliveIn_insert_self,
        if_pos isAlive_putEntry, Write.record, deleted_putRecord, kvBytes_putRecord]
      rfl
  | delete k rev prev =>
      have hdead : ({ prev with deleteRevision := rev } : KeyState).isAlive = false :=
        decide_eq_false hpos
      rw [Write.key, Keyspace.apply, aliveIn_insert_self, hdead, Write.record, recordData,
        deleted_deleteRecord]
      rfl

/-- **The records of a run read as the run went**, whatever part of the data is looked at. -/
theorem lastFrom_run {γ : Type} (φ : UInt64 × Bytes → γ) {K K' : Keyspace} {ws : List Write}
    (hrun : Keyspace.Run K ws K') (hfit : ∀ w ∈ ws, w.record.Fits) (hpos : ∀ w ∈ ws, w.rev ≠ 0)
    {init : Option γ} {key : Bytes}
    (h : init = (aliveIn K.keys key).map (φ ∘ KeyState.written)) :
    KeyedLog.lastFrom KvWalRecord.key (fun rec => (recordData rec).map φ) init
      (ws.map Write.record) (some key) = (aliveIn K'.keys key).map (φ ∘ KeyState.written) := by
  induction hrun generalizing init with
  | nil => exact h
  | @cons K K' w ws hw _ ih =>
      obtain ⟨-, hkey, -⟩ := Write.record_spec (hfit w (by simp))
      rw [List.map_cons, KeyedLog.lastFrom_cons]
      refine ih (fun v hv => hfit v (by simp [hv])) (fun v hv => hpos v (by simp [hv])) ?_
      rw [hkey]
      by_cases hk : w.key = key
      · rw [if_pos (by rw [hk]), ← hk, ← Option.map_map,
          written_apply_self hw (hfit w (by simp)) (hpos w (by simp))]
      · rw [if_neg (by simpa using hk), aliveIn_apply_of_ne hk]
        exact h

/-! ### The history of a store, cut at a revision

The records of the file are those of all writes. Up to `r` they rebuild the state of then.
-/

/-- The store when revision `r` was the current one, in a run of requests. -/
def LiveAt (qs : List Request) (r : UInt64) (s₁ : StoreState) : Prop :=
  ∃ qs₁ qs₂, qs = qs₁ ++ qs₂ ∧ serve fresh qs₁ = some s₁ ∧ s₁.currentRevision = r

omit [LawfulCrates] in
/-- Requests move the counter step by step, so it takes every value. -/
theorem exists_nextRev {s₀ s : StoreState} {qs : List Request} (hs : s₀.wal.faults = [])
    (hserve : serve s₀ qs = some s) (hlt : s₀.nextRev.toNat + qs.length < 2 ^ 64) {n : Nat}
    (hge : s₀.nextRev.toNat ≤ n) (hle : n ≤ s.nextRev.toNat) :
    ∃ qs₁ qs₂ s₁, qs = qs₁ ++ qs₂ ∧ serve s₀ qs₁ = some s₁ ∧ s₁.nextRev.toNat = n := by
  induction qs generalizing s₀ with
  | nil =>
      cases hserve
      exact ⟨[], [], _, rfl, rfl, by omega⟩
  | cons q qs ih =>
      by_cases hn : s₀.nextRev.toNat = n
      · exact ⟨[], q :: qs, s₀, rfl, rfl, hn⟩
      · obtain ⟨s₁, hq, hqs⟩ := serve_cons.mp hserve
        obtain ⟨ws, hws⟩ := answer_served hs hq
        rw [List.length_cons] at hlt
        obtain ⟨-, hstep, -⟩ := hws.toNat_nextRev (by omega)
        obtain ⟨qs₁, qs₂, s₂, rfl, hs₂, hnext⟩ := ih hws.faults hqs (by omega) (by omega)
        exact ⟨q :: qs₁, qs₂, s₂, rfl, serve_cons.mpr ⟨s₁, hq, hs₂⟩, hnext⟩

omit [LawfulCrates] in
/-- **Every revision up to the current one was current once.** The run is cut behind the last write
at or below the revision. -/
theorem exists_liveAt {qs : List Request} {s : StoreState} (hserve : serve fresh qs = some s)
    (hlt : qs.length + 1 < 2 ^ 64) {r : UInt64} (hr : r ≤ s.currentRevision) :
    ∃ s₁, LiveAt qs r s₁ := by
  have hone : fresh.nextRev.toNat = 1 := rfl
  obtain ⟨hle, -, -⟩ := serve_revisions rfl hserve (by omega)
  have hcur := @toNat_currentRevision s (by omega)
  rw [UInt64.le_iff_toNat_le] at hr
  obtain ⟨qs₁, qs₂, s₁, hqs, hs₁, hnext⟩ :=
    @exists_nextRev _ fresh s qs rfl hserve (by omega) (r.toNat + 1) (by omega) (by omega)
  refine ⟨s₁, qs₁, qs₂, hqs, hs₁, UInt64.toNat_inj.mp ?_⟩
  have hcur₁ := @toNat_currentRevision s₁ (by omega)
  omega

/-- The writes that led to `s` are those up to revision `r`, which led to `s₁`, and those after it.
Revisions tell the two parts apart, and the file has the records of both, in the order of the
writes. -/
structure CutAt (r : UInt64) (s₁ s : StoreState) (ws vs : List Write) : Prop where
  before : Keyspace.Run .empty ws s₁.keyspace
  after : Keyspace.Run s₁.keyspace vs s.keyspace
  contents : s.wal.contents = serializeAll ((ws ++ vs).map Write.record)
  rev_le : ∀ w ∈ ws, w.rev ≠ 0 ∧ w.rev ≤ r
  rev_gt : ∀ w ∈ vs, r < w.rev
  fits : ∀ w ∈ ws ++ vs, w.record.Fits

namespace CutAt

variable {r : UInt64} {s₁ s : StoreState} {ws vs : List Write}

omit [LawfulCrates] in
/-- A run of requests is cut at the revision that was current at some point of it, and its log
is that of the writes. -/
theorem exists_cut {qs : List Request} (hserve : serve fresh qs = some s)
    (hlt : qs.length + 1 < 2 ^ 64) (hfit : ∀ rec ∈ s.wal.log, rec.Fits) (h : LiveAt qs r s₁) :
    ∃ ws vs, CutAt r s₁ s ws vs ∧ s.wal.log = (ws ++ vs).map Write.record := by
  obtain ⟨qs₁, qs₂, rfl, hs₁, hcur⟩ := h
  have hone : fresh.nextRev.toNat = 1 := rfl
  rw [List.length_append] at hlt
  obtain ⟨s₁', hs₁', hs⟩ := Trace.run_append_eq_some.mp hserve
  obtain rfl : s₁ = s₁' := Option.some.inj (hs₁.symm.trans hs₁')
  obtain ⟨hle₁, hle₁', ws, hws, hwsRev⟩ := serve_revisions rfl hs₁ (by omega)
  obtain ⟨-, -, vs, hvs, hvsRev⟩ := serve_revisions hws.faults hs (by omega)
  have hnext := @toNat_currentRevision s₁ (by omega)
  rw [hcur] at hnext
  have hcommits := hws.trans hvs
  refine ⟨ws, vs, ⟨hws.run, hvs.run, hcommits.contents, ?_, ?_, ?_⟩, hcommits.log⟩
  · intro w hw
    obtain ⟨hge, hlt⟩ := hwsRev w hw
    refine ⟨?_, UInt64.le_iff_toNat_le.mpr (by omega)⟩
    intro hzero
    rw [hzero, UInt64.toNat_zero] at hge
    omega
  · intro w hw
    rw [UInt64.lt_iff_toNat_lt]
    have := hvsRev w hw
    omega
  · intro w hw
    refine hfit _ ?_
    rw [hcommits.log]
    exact List.mem_append_right _ (List.mem_map_of_mem hw)

omit [LawfulCrates] in
theorem of_liveAt {qs : List Request} (hserve : serve fresh qs = some s)
    (hlt : qs.length + 1 < 2 ^ 64) (hfit : ∀ rec ∈ s.wal.log, rec.Fits) (h : LiveAt qs r s₁) :
    ∃ ws vs, CutAt r s₁ s ws vs := by
  obtain ⟨ws, vs, hcut, -⟩ := exists_cut hserve hlt hfit h
  exact ⟨ws, vs, hcut⟩

omit [LawfulCrates] in
theorem settled (h : CutAt r s₁ s ws vs) : Settled r s₁.keyspace :=
  h.before.invariant (settled_empty r) fun _ w hw hK haccepts => hK.apply haccepts (h.rev_le w hw).2

omit [LawfulCrates] in
theorem since (h : CutAt r s₁ s ws vs) (key : Bytes) : Since r s₁.keys[key]? s.keys[key]? :=
  h.after.invariant (fun _ => .same) (fun _ w hw hK haccepts => Since.apply hK haccepts
    (h.rev_gt w hw)) key

/-- **Phase 2 rebuilds the blobs at `r`.** The records beyond `r` are dropped by the scan, and the
others rebuild the map of `s₁`. -/
theorem scanWalRange_eq (h : CutAt r s₁ s ws vs) (key rangeEnd : Bytes) :
    ∃ walState, scanWalRange s.wal.contents key rangeEnd r = .ok walState ∧
      ∀ k, walState[k]? = if matchesRange (resolveRange key rangeEnd) k
        then (s₁.alive? k).map KeyState.kvBytes else none := by
  have hscan := scanKvFile_serializeAll (wellFormed_of_fits h.fits)
  rw [← h.contents] at hscan
  refine ⟨_, by rw [scanWalRange, hscan], ?_⟩
  have hrev : ∀ w ∈ ws ++ vs, w.record.revision = w.rev :=
    fun w hw => (Write.record_spec (h.fits w hw)).2.2
  -- the records up to `r` are those of the writes up to `r`
  have hfilter : ((ws ++ vs).map Write.record).filter (·.revision ≤ r) = ws.map Write.record := by
    rw [List.map_append, List.filter_append, List.filter_eq_self.mpr, List.filter_eq_nil_iff.mpr,
      List.append_nil]
    · intro rec hrec
      obtain ⟨w, hw, rfl⟩ := List.mem_map.mp hrec
      rw [hrev w (List.mem_append_right _ hw)]
      simpa using h.rev_gt w hw
    · intro rec hrec
      obtain ⟨w, hw, rfl⟩ := List.mem_map.mp hrec
      rw [hrev w (List.mem_append_left _ hw)]
      simpa using (h.rev_le w hw).2
  intro k
  have hlast : KeyedLog.lastFrom KvWalRecord.key (fun rec => (recordData rec).map Prod.snd) none
      (ws.map Write.record) (some k) = (s₁.alive? k).map KeyState.kvBytes :=
    lastFrom_run Prod.snd h.before (fun w hw => h.fits w (List.mem_append_left _ hw))
      (fun w hw => (h.rev_le w hw).1) rfl
  rw [getElem?_scan, hfilter, lastData, ← KeyedLog.last_map, KeyedLog.last, hlast]

end CutAt

/-! ### The blobs name their keys -/

/-- The key inside a blob. -/
def blobKey (blob : Bytes) : Option Bytes := (decodeKeyValue blob).map (·.key)

/-- Every entry's blob names the key it is stored under. -/
def Named (K : Keyspace) : Prop :=
  ∀ (key : Bytes) (ks : KeyState), K.keys[key]? = some ks →
    key.length < 2 ^ 32 ∧ blobKey ks.kvBytes = some key

theorem Named.apply {K : Keyspace} {w : Write} (h : Named K) (hw : K.Accepts w)
    (hfit : w.record.Fits) : Named (K.apply w) := by
  intro key ks hks
  cases w with
  | put k value lease rev prev =>
      obtain rfl : aliveIn K.keys k = prev := hw
      rcases getElem?_insert_cases hks with ⟨rfl, rfl⟩ | ⟨-, hks⟩
      · obtain ⟨-, -, -, hdec⟩ := KvWalRecord.Fits.new_spec hfit
        refine ⟨KvWalRecord.Fits.key_length hfit, ?_⟩
        rw [blobKey, ← kvBytes_putRecord]
        exact congrArg (Option.map (·.key)) hdec
      · exact h key ks hks
  | delete k rev prev =>
      rcases getElem?_insert_cases hks with ⟨rfl, rfl⟩ | ⟨-, hks⟩
      · exact h key prev (aliveIn_eq_some.mp hw.1).1
      · exact h key ks hks

theorem Named.run {K K' : Keyspace} {ws : List Write} (h : Named K)
    (hrun : Keyspace.Run K ws K') (hfit : ∀ w ∈ ws, w.record.Fits) : Named K' :=
  hrun.invariant h fun _ w hw hK haccepts => hK.apply haccepts (hfit w hw)

/-- The blobs of a response name their keys as well. -/
theorem blobKey_responseKv (req : RangeRequest) {key blob : Bytes} (hlen : key.length < 2 ^ 32)
    (hblob : blobKey blob = some key) : blobKey (responseKv req key blob) = some key := by
  unfold responseKv
  split
  · rw [blobKey, decodeKeyValue_encodeKv key [] 0 0 0 0 hlen (by simp)]
    rfl
  · exact hblob

/-! ### The entries of a historical range

The two ways to answer, from memory alone and with the WAL, in one description.
-/

/-- What every entry of an answer satisfies. -/
structure AnswerEntry (s₁ s : StoreState) (req : RangeRequest) (key kv : Bytes) : Prop where
  matches_range : matchesRange (resolveRange req.key req.rangeEnd) key = true
  known : key ∈ s.keys
  named : blobKey kv = some key
  /-- If the key was alive at the revision asked for, then with this blob. -/
  blob_eq : ∀ ks₁, s₁.alive? key = some ks₁ → kv = responseKv req key ks₁.kvBytes

namespace CutAt

variable {r : UInt64} {s₁ s : StoreState} {ws vs : List Write} {req : RangeRequest}

theorem named (h : CutAt r s₁ s ws vs) : Named s₁.keyspace ∧ Named s.keyspace := by
  have hempty : Named .empty := by
    intro key ks hks
    simp [Keyspace.empty] at hks
  have hnamed := hempty.run h.before fun w hw => h.fits w (List.mem_append_left _ hw)
  exact ⟨hnamed, hnamed.run h.after fun w hw => h.fits w (List.mem_append_right _ hw)⟩

omit [LawfulCrates] in
/-- An entry that covers `r` was alive then. -/
theorem alive_of_covers (h : CutAt r s₁ s ws vs) {key : Bytes} {ks : KeyState}
    (hks : s.keys[key]? = some ks) (hcovers : ks.Covers r) :
    ∃ ks₁, s₁.alive? key = some ks₁ ∧ (ks.modRevision ≤ r → ks.kvBytes = ks₁.kvBytes) := by
  have hsince := h.since key
  rw [hks] at hsince
  obtain ⟨a, ha, halive, hblob⟩ :=
    hsince.alive_of_covers (fun a ha => (h.settled key a ha).2.2) hcovers
  exact ⟨a, aliveIn_eq_some.mpr ⟨ha, halive⟩, hblob⟩

omit [LawfulCrates] in
/-- A key alive at `r` has an entry, which covers `r` unless it was reborn. -/
theorem covers_of_alive (h : CutAt r s₁ s ws vs) {key : Bytes} {ks₁ : KeyState}
    (hks₁ : s₁.alive? key = some ks₁) :
    ∃ ks, s.keys[key]? = some ks ∧ (ks.createRevision ≤ r → ks.Covers r) := by
  obtain ⟨hget, halive⟩ := aliveIn_eq_some.mp hks₁
  exact (h.since key).covers_of_alive hget halive

/-- A direct key is answered with its blob at `r`. -/
theorem answerEntry_direct (h : CutAt r s₁ s ws vs) (hu : Unfiltered req) {key : Bytes}
    {ks : KeyState} (hks : (key, ks) ∈ classified s req r .direct) :
    AnswerEntry s₁ s req key (responseKv req key ks.kvBytes) ∧
      ∃ ks₁, s₁.alive? key = some ks₁ := by
  obtain ⟨hget, hmatch, hclass⟩ := mem_classified.mp hks
  obtain ⟨hcovers, hmod⟩ := (phase1Classify_eq_direct hu).mp hclass
  obtain ⟨ks₁, hks₁, hblob⟩ := h.alive_of_covers hget hcovers
  obtain ⟨hlen, hname⟩ := h.named.2 key ks hget
  refine ⟨⟨hmatch, ?_, blobKey_responseKv req hlen hname, ?_⟩, ks₁, hks₁⟩
  · exact ExtTreeMap.mem_iff_isSome_getElem?.mpr (by rw [hget]; rfl)
  · intro ks₁' hks₁'
    rw [hks₁] at hks₁'
    cases hks₁'
    rw [hblob hmod]

/-- So is a key of the range that the WAL was searched for. -/
theorem answerEntry_wal (h : CutAt r s₁ s ws vs) {key : Bytes} {ks₁ : KeyState}
    (hmatch : matchesRange (resolveRange req.key req.rangeEnd) key = true)
    (hks₁ : s₁.alive? key = some ks₁) :
    AnswerEntry s₁ s req key (responseKv req key ks₁.kvBytes) := by
  obtain ⟨hlen, hname⟩ := h.named.1 key ks₁ (aliveIn_eq_some.mp hks₁).1
  obtain ⟨ks, hget, -⟩ := h.covers_of_alive hks₁
  refine ⟨hmatch, ?_, blobKey_responseKv req hlen hname, ?_⟩
  · exact ExtTreeMap.mem_iff_isSome_getElem?.mpr (by rw [hget]; rfl)
  · intro ks₁' hks₁'
    rw [hks₁] at hks₁'
    cases hks₁'
    rfl

end CutAt

/-- No key of the range that was alive at `r` is hidden by a later lifetime, or else some key of
the range sends phase 1 to the WAL. -/
def HidesNothing (s₁ s : StoreState) (req : RangeRequest) (r : UInt64) : Prop :=
  (∀ (key : Bytes) (ks₁ ks : KeyState),
    matchesRange (resolveRange req.key req.rangeEnd) key = true → s₁.alive? key = some ks₁ →
      s.keys[key]? = some ks → ks.createRevision ≤ r) ∨
  classified s req r .stale ≠ []

/-- No key of the range that is alive in a lifetime after `r` with a `rebirth` flag was dead
at `r`. -/
def ShowsNothing (s₁ s : StoreState) (req : RangeRequest) (r : UInt64) : Prop :=
  ∀ (key : Bytes) (ks : KeyState),
    matchesRange (resolveRange req.key req.rangeEnd) key = true → s.alive? key = some ks →
      ks.rebirth = true → r < ks.createRevision → ∃ ks₁, s₁.alive? key = some ks₁

/-- The entries of an answer, and when they are complete and sound. The two equivalences decide
whether a response is complete and sound; the other fields are what it takes to make a response of
the entries. -/
structure Answer (s₁ s : StoreState) (req : RangeRequest) (r : UInt64)
    (es : List (Bytes × Bytes)) : Prop where
  length_le : es.length ≤ s.keys.size
  entry : ∀ key kv, (key, kv) ∈ es → AnswerEntry s₁ s req key kv
  named : ∀ key ks₁, s₁.alive? key = some ks₁ →
    blobKey (responseKv req key ks₁.kvBytes) = some key
  complete : (∀ key ks₁, matchesRange (resolveRange req.key req.rangeEnd) key = true →
    s₁.alive? key = some ks₁ → ∃ kv, (key, kv) ∈ es) ↔ HidesNothing s₁ s req r
  sound : (∀ key kv, (key, kv) ∈ es → ∃ ks₁, s₁.alive? key = some ks₁)
    ↔ ShowsNothing s₁ s req r

namespace CutAt

variable {r : UInt64} {s₁ s : StoreState} {ws vs : List Write} {req : RangeRequest}

theorem blobKey_of_alive (h : CutAt r s₁ s ws vs) {key : Bytes} {ks₁ : KeyState}
    (hks₁ : s₁.alive? key = some ks₁) : blobKey (responseKv req key ks₁.kvBytes) = some key := by
  obtain ⟨hlen, hname⟩ := h.named.1 key ks₁ (aliveIn_eq_some.mp hks₁).1
  exact blobKey_responseKv req hlen hname

/-- The answer of phase 1 alone. -/
theorem answer_direct (h : CutAt r s₁ s ws vs) (hu : Unfiltered req)
    (hstale : classified s req r .stale = []) :
    Answer s₁ s req r ((classified s req r .direct).map
      fun e => (e.1, responseKv req e.1 e.2.kvBytes)) := by
  -- no key under the range is left to the scan of the WAL
  have hnone : ∀ key ks, s.keys[key]? = some ks →
      matchesRange (resolveRange req.key req.rangeEnd) key = true →
        phase1Classify req r ks ≠ .stale := by
    intro key ks hget hmatch hclass
    have := mem_classified.mpr ⟨hget, hmatch, hclass⟩
    simp [hstale] at this
  refine ⟨?_, ?_, fun _ _ => h.blobKey_of_alive, ?_, ?_⟩
  · rw [List.length_map]
    exact length_classified_le s req r .direct
  · intro key kv hmem
    obtain ⟨e, he, heq⟩ := List.mem_map.mp hmem
    cases heq
    exact (h.answerEntry_direct hu he).1
  · constructor
    · intro hall
      refine .inl ?_
      intro key ks₁ ks hmatch hks₁ hget
      obtain ⟨kv, hmem⟩ := hall key ks₁ hmatch hks₁
      obtain ⟨e, he, heq⟩ := List.mem_map.mp hmem
      cases heq
      obtain ⟨hget', -, hclass⟩ := mem_classified.mp he
      rw [hget] at hget'
      cases hget'
      exact ((phase1Classify_eq_direct hu).mp hclass).1.1
    · -- a key whose lifetime began after `r` would hide what it held at `r`
      intro hhides key ks₁ hmatch hks₁
      rcases hhides with hcreate | hne
      · obtain ⟨ks, hget, hcovers⟩ := h.covers_of_alive hks₁
        have hcovers := hcovers (hcreate key ks₁ ks hmatch hks₁ hget)
        by_cases hmod : r < ks.modRevision
        · exact absurd ((phase1Classify_eq_stale hu).mpr (.inl ⟨hcovers, hmod⟩))
            (hnone key ks hget hmatch)
        · have hclass := (phase1Classify_eq_direct hu).mpr ⟨hcovers, UInt64.not_lt.mp hmod⟩
          exact ⟨_, List.mem_map.mpr ⟨(key, ks), mem_classified.mpr ⟨hget, hmatch, hclass⟩, rfl⟩⟩
      · exact absurd hstale hne
  · constructor
    · intro _ key ks hmatch hks hrebirth hlt
      obtain ⟨hget, halive⟩ := aliveIn_eq_some.mp hks
      exact absurd ((phase1Classify_eq_stale hu).mpr (.inr ⟨halive, hlt, hrebirth⟩))
        (hnone key ks hget hmatch)
    · intro _ key kv hmem
      obtain ⟨e, he, heq⟩ := List.mem_map.mp hmem
      cases heq
      exact (h.answerEntry_direct hu he).2

/-- What the WAL scan of phase 2 has found. -/
def Found (s₁ : StoreState) (req : RangeRequest) (walState : ExtTreeMap Bytes Bytes) : Prop :=
  ∀ k : Bytes, walState[k]? = if matchesRange (resolveRange req.key req.rangeEnd) k
    then (s₁.alive? k).map KeyState.kvBytes else none

omit [Crates] [LawfulCrates] in
theorem Found.alive {walState : ExtTreeMap Bytes Bytes} (h : Found s₁ req walState)
    {key blob : Bytes} (hget : walState[key]? = some blob) :
    matchesRange (resolveRange req.key req.rangeEnd) key = true ∧
      ∃ ks₁, s₁.alive? key = some ks₁ ∧ ks₁.kvBytes = blob := by
  rw [h key] at hget
  split at hget
  · next hmatch => exact ⟨hmatch, Option.map_eq_some_iff.mp hget⟩
  · cases hget

omit [Crates] [LawfulCrates] in
theorem Found.not_alive {walState : ExtTreeMap Bytes Bytes} (h : Found s₁ req walState)
    {key : Bytes} (hmatch : matchesRange (resolveRange req.key req.rangeEnd) key = true)
    (hget : walState[key]? = none) : s₁.alive? key = none := by
  rw [h key, if_pos hmatch] at hget
  exact Option.map_eq_none_iff.mp hget

/-- The merged answer. -/
theorem answer_merged (h : CutAt r s₁ s ws vs) (hu : Unfiltered req)
    (hstale : classified s req r .stale ≠ []) {walState : ExtTreeMap Bytes Bytes}
    (hfound : Found s₁ req walState) :
    Answer s₁ s req r (historicalMerge s req
      ((classified s req r .direct).map fun e => (e.1, responseKv req e.1 e.2.kvBytes))
      ((classified s req r .stale).map (·.1)) walState).toList := by
  have hentry : AllEntries (AnswerEntry s₁ s req) (historicalMerge s req
      ((classified s req r .direct).map fun e => (e.1, responseKv req e.1 e.2.kvBytes))
      ((classified s req r .stale).map (·.1)) walState) := by
    refine historicalMerge_all ?_ ?_ ?_
    · intro e he
      obtain ⟨e', he', rfl⟩ := List.mem_map.mp he
      rw [responseKv_idem]
      exact (h.answerEntry_direct hu he').1
    · intro key blob hget
      obtain ⟨hmatch, ks₁, hks₁, rfl⟩ := hfound.alive hget
      exact h.answerEntry_wal hmatch hks₁
    · -- the fallback never concerns a key that was alive at `r`
      intro key hkey ks hget hks
      obtain ⟨e, he, rfl⟩ := List.mem_map.mp hkey
      obtain ⟨hgetKs, hmatch, -⟩ := mem_classified.mp he
      obtain ⟨hgetKs', -⟩ := aliveIn_eq_some.mp hks
      obtain ⟨hlen, hname⟩ := h.named.2 e.1 ks hgetKs'
      refine ⟨hmatch, ?_, blobKey_responseKv req hlen hname, ?_⟩
      · exact ExtTreeMap.mem_iff_isSome_getElem?.mpr (by rw [hgetKs]; rfl)
      · intro ks₁ hks₁
        rw [hfound.not_alive hmatch hget] at hks₁
        cases hks₁
  refine ⟨length_toList_le fun key kv hget => (hentry key kv hget).known, ?_,
    fun _ _ => h.blobKey_of_alive, ?_, ?_⟩
  · intro key kv hmem
    exact hentry key kv (ExtTreeMap.mem_toList_iff_getElem?_eq_some.mp hmem)
  · -- what the WAL holds at `r` is merged in, so nothing of it is missing
    refine iff_of_true ?_ (.inr hstale)
    intro key ks₁ hmatch hks₁
    have hget : walState[key]? = some ks₁.kvBytes := by
      rw [hfound key, if_pos hmatch, hks₁]
      rfl
    exact exists_mem_toList (contains_historicalMerge (.inl ⟨_, hget, hmatch⟩))
  · constructor
    · intro hall key ks hmatch hks hrebirth hlt
      obtain ⟨hget, halive⟩ := aliveIn_eq_some.mp hks
      -- a reborn key is stale, and the merge then answers it from wherever it finds it
      have hclass := (phase1Classify_eq_stale hu).mpr (.inr ⟨halive, hlt, hrebirth⟩)
      have hmem : key ∈ (classified s req r .stale).map (·.1) :=
        List.mem_map.mpr ⟨(key, ks), mem_classified.mpr ⟨hget, hmatch, hclass⟩, rfl⟩
      obtain ⟨kv, hkv⟩ := exists_mem_toList (contains_historicalMerge (.inr ⟨hmem, ks, hks⟩))
      exact hall key kv hkv
    · intro hshows key kv hmem
      have halive : AllEntries (fun key _ => ∃ ks₁, s₁.alive? key = some ks₁) (historicalMerge s req
          ((classified s req r .direct).map fun e => (e.1, responseKv req e.1 e.2.kvBytes))
          ((classified s req r .stale).map (·.1)) walState) := by
        refine historicalMerge_all ?_ ?_ ?_
        · intro e he
          obtain ⟨e', he', rfl⟩ := List.mem_map.mp he
          exact (h.answerEntry_direct hu he').2
        · intro key blob hget
          obtain ⟨-, ks₁, hks₁, -⟩ := hfound.alive hget
          exact ⟨ks₁, hks₁⟩
        · intro key hkey ks _ hks
          obtain ⟨e, he, rfl⟩ := List.mem_map.mp hkey
          obtain ⟨hget, hmatch, hclass⟩ := mem_classified.mp he
          rcases (phase1Classify_eq_stale hu).mp hclass with ⟨hcovers, -⟩ | ⟨halive, hlt, hrebirth⟩
          · obtain ⟨ks₁, hks₁, -⟩ := h.alive_of_covers hget hcovers
            exact ⟨ks₁, hks₁⟩
          · exact hshows e.1 e.2 hmatch (aliveIn_eq_some.mpr ⟨hget, halive⟩) hrebirth hlt
      exact halive key kv (ExtTreeMap.mem_toList_iff_getElem?_eq_some.mp hmem)

/-- **The entries of a historical range**, whichever way they are found. If phase 1 has left nothing
to the WAL the direct entries are the answer, and otherwise the merge is. -/
theorem exists_answer (h : CutAt r s₁ s ws vs) (hu : Unfiltered req)
    (hinv : (resolveRange req.key req.rangeEnd).inverted = false) :
    ∃ es, historicalEntries s req r = .ok es ∧ Answer s₁ s req r es := by
  unfold historicalEntries
  rw [historicalPhase1_eq s r hinv]
  simp only [bind, Except.bind, List.map_eq_nil_iff]
  by_cases hstale : classified s req r .stale = []
  · rw [if_pos hstale]
    exact ⟨_, rfl, h.answer_direct hu hstale⟩
  · rw [if_neg hstale]
    obtain ⟨walState, hscan, hfound⟩ := h.scanWalRange_eq req.key req.rangeEnd
    rw [hscan]
    exact ⟨_, rfl, h.answer_merged hu hstale hfound⟩

end CutAt

/-! ### Historical ranges -/

/-- A request that `range` answers from history: it names a key and a revision that was reached
and not compacted, its range is not inverted, and it filters nothing. -/
structure Historical (s : StoreState) (req : RangeRequest) : Prop where
  key_ne : req.key ≠ []
  revision_pos : 0 < req.revision
  not_compacted : s.compactRev ≤ req.revision.toUInt64
  reached : req.revision.toUInt64 ≤ s.currentRevision
  not_inverted : (resolveRange req.key req.rangeEnd).inverted = false
  unfiltered : Unfiltered req

omit [LawfulCrates] in
theorem Historical.range_eq {s : StoreState} {req : RangeRequest} (h : Historical s req) :
    range s req = rangeHistorical s req req.revision.toUInt64 :=
  range_eq_historical h.key_ne h.revision_pos h.not_compacted h.reached

/-- The response of a historical range is made of an answer. -/
theorem Historical.exists_response {qs : List Request} {s : StoreState}
    (hserve : serve fresh qs = some s) (hlt : qs.length + 1 < 2 ^ 64)
    (hfit : ∀ rec ∈ s.wal.log, rec.Fits) (hsize : s.keys.size ≤ 2 ^ 32) {req : RangeRequest}
    (hreq : Historical s req) {s₁ : StoreState} (hs₁ : LiveAt qs req.revision.toUInt64 s₁) :
    ∃ resp es, range s req = .ok resp ∧ Answer s₁ s req req.revision.toUInt64 es ∧
      (∀ kv ∈ resp.kvs, kv ∈ es.map (·.2)) ∧
      (req.countOnly = false → req.limit ≤ 0 → resp.kvs.Perm (es.map (·.2))) := by
  obtain ⟨ws, vs, hcut⟩ := CutAt.of_liveAt hserve hlt hfit hs₁
  obtain ⟨es, hes, hanswer⟩ := hcut.exists_answer hreq.unfiltered hreq.not_inverted
  obtain ⟨resp, hresp, hmem, hperm⟩ :=
    rangeHistorical_of_entries hes (hanswer.length_le.trans hsize)
  exact ⟨resp, es, hreq.range_eq.trans hresp, hanswer, hmem, hperm⟩

/-- **A historical range is complete** exactly when it hides nothing: it answers with every key
of the range that was alive at the revision asked for, with its blob of then, if and only if no
such key was deleted and recreated since, or some key of the range sends phase 1 to the WAL. -/
theorem historical_range_complete {qs : List Request} {s : StoreState}
    (hserve : serve fresh qs = some s) (hlt : qs.length + 1 < 2 ^ 64)
    (hfit : ∀ rec ∈ s.wal.log, rec.Fits) (hsize : s.keys.size ≤ 2 ^ 32) {req : RangeRequest}
    (hreq : Historical s req) (hcount : req.countOnly = false) (hlimit : req.limit ≤ 0) :
    (∃ s₁, LiveAt qs req.revision.toUInt64 s₁) ∧
    ∀ s₁, LiveAt qs req.revision.toUInt64 s₁ → ∃ resp, range s req = .ok resp ∧
      ((∀ key ks₁, matchesRange (resolveRange req.key req.rangeEnd) key = true →
          s₁.alive? key = some ks₁ → responseKv req key ks₁.kvBytes ∈ resp.kvs) ↔
        HidesNothing s₁ s req req.revision.toUInt64) := by
  refine ⟨exists_liveAt hserve hlt hreq.reached, ?_⟩
  intro s₁ hs₁
  obtain ⟨resp, es, hresp, hanswer, -, hperm⟩ :=
    Historical.exists_response hserve hlt hfit hsize hreq hs₁
  have hmem := fun kv => (hperm hcount hlimit).mem_iff (a := kv)
  refine ⟨resp, hresp, ?_⟩
  rw [← hanswer.complete]
  constructor
  · intro hall key ks₁ hmatch hks₁
    obtain ⟨e, he, heq⟩ := List.mem_map.mp ((hmem _).mp (hall key ks₁ hmatch hks₁))
    -- the blob names its key, so the entry that shows it is the one of this key
    obtain rfl : e.1 = key := by
      have hname := (hanswer.entry e.1 e.2 he).named
      rw [heq, hanswer.named key ks₁ hks₁] at hname
      exact (Option.some.inj hname).symm
    exact ⟨e.2, he⟩
  · intro hall key ks₁ hmatch hks₁
    obtain ⟨kv, hkv⟩ := hall key ks₁ hmatch hks₁
    rw [hmem, ← (hanswer.entry key kv hkv).blob_eq ks₁ hks₁]
    exact List.mem_map.mpr ⟨(key, kv), hkv, rfl⟩

end

/-- A key that was updated and then deleted, read at its first revision. -/
theorem historical_range_complete_deleted :
    ∃ s s₁ resp, serve fresh [.put { key := [1], value := [2] }, .put { key := [1], value := [3] },
        .deleteRange { key := [1] }] = some s ∧
      LiveAt [.put { key := [1], value := [2] }, .put { key := [1], value := [3] },
        .deleteRange { key := [1] }] 1 s₁ ∧
      range s { key := [1], revision := 1 } = .ok resp ∧
      ∀ key ks₁, matchesRange (.point [1]) key = true → s₁.alive? key = some ks₁ →
        ks₁.kvBytes ∈ resp.kvs := by
  have hrun : ((serve fresh [.put { key := [1], value := [2] }, .put { key := [1], value := [3] },
      .deleteRange { key := [1] }]).any fun s =>
        decide ((∀ rec ∈ s.wal.log, rec.Fits) ∧ s.keys.size ≤ 2 ^ 32 ∧ s.compactRev = 0 ∧
          s.currentRevision = 3 ∧
          classified s { key := [1], revision := 1 } 1 .stale ≠ [])) = true := by
    decide +kernel
  obtain ⟨s, hs, hfacts⟩ := (Option.any_eq_true _ _).mp hrun
  obtain ⟨hfit, hsize, hcompact, hcur, hstale⟩ := of_decide_eq_true hfacts
  have hreq : Historical s { key := [1], revision := 1 } :=
    ⟨by decide, by decide, by rw [hcompact]; decide, by rw [hcur]; decide, rfl,
      by decide, by decide, by decide, by decide⟩
  obtain ⟨⟨s₁, hs₁⟩, hall⟩ :=
    historical_range_complete hs (by decide) hfit hsize hreq rfl (by decide)
  obtain ⟨resp, hresp, hiff⟩ := hall s₁ hs₁
  exact ⟨s, s₁, resp, hs, hs₁, hresp, hiff.mpr (.inr hstale)⟩

/-- A key that was alive at revision 1 is missing from the range at that revision. -/
def MissesFirst (qs : List Request) : Prop :=
  ∃ s s₁ ks₁ resp, serve fresh qs = some s ∧ LiveAt qs 1 s₁ ∧ s₁.alive? [1] = some ks₁ ∧
    range s { key := [1], revision := 1 } = .ok resp ∧ ks₁.kvBytes ∉ resp.kvs

/-- The condition is needed: a later lifetime hides an earlier one when it has ended, because the
entry is then a tombstone created later, and when the key was updated in it, because the update
has reset its `rebirth` flag. -/
theorem recreated_key_hidden :
    MissesFirst [.put { key := [1], value := [2] }, .deleteRange { key := [1] },
      .put { key := [1], value := [3] }, .deleteRange { key := [1] }] ∧
    MissesFirst [.put { key := [1], value := [2] }, .deleteRange { key := [1] },
      .put { key := [1], value := [3] }, .put { key := [1], value := [4] }] := by
  have hmisses : ∀ qs : List Request,
      ((serve fresh (.put { key := [1], value := [2] } :: qs)).any fun s =>
        (serve fresh [.put { key := [1], value := [2] }]).any fun s₁ =>
          decide (s₁.currentRevision = 1) && (s₁.alive? [1]).any fun ks₁ =>
            (range s { key := [1], revision := 1 }).toOption.any fun resp =>
              decide (ks₁.kvBytes ∉ resp.kvs)) = true →
        MissesFirst (.put { key := [1], value := [2] } :: qs) := by
    intro qs hrun
    obtain ⟨s, hs, hrun⟩ := (Option.any_eq_true _ _).mp hrun
    obtain ⟨s₁, hs₁, hrun⟩ := (Option.any_eq_true _ _).mp hrun
    obtain ⟨hcur, hrun⟩ := (Bool.and_eq_true _ _).mp hrun
    obtain ⟨ks₁, hks₁, hrun⟩ := (Option.any_eq_true _ _).mp hrun
    obtain ⟨resp, hresp, hnot⟩ := (Option.any_eq_true _ _).mp hrun
    exact ⟨s, s₁, ks₁, resp, hs, ⟨[_], _, rfl, hs₁, of_decide_eq_true hcur⟩, hks₁,
      Prog.ok_of_toOption hresp, of_decide_eq_true hnot⟩
  exact ⟨hmisses _ (by decide +kernel), hmisses _ (by decide +kernel)⟩

section

variable [Crates] [LawfulCrates]

/-- What a sound answer is made of. -/
def SoundAt (r : UInt64) (s₁ : StoreState) (req : RangeRequest) (kv : Bytes) : Prop :=
  ∃ key ks₁, matchesRange (resolveRange req.key req.rangeEnd) key = true ∧
    s₁.alive? key = some ks₁ ∧ ks₁.modRevision ≤ r ∧ kv = responseKv req key ks₁.kvBytes

/-- **A historical range is sound** when it shows nothing that was not there: every blob it
answers with is that of a key of the range that was alive at the revision asked for, provided no
key that is now in a later lifetime with a `rebirth` flag was dead then. For a range without a
limit the condition is also needed. -/
theorem historical_range_sound {qs : List Request} {s : StoreState}
    (hserve : serve fresh qs = some s) (hlt : qs.length + 1 < 2 ^ 64)
    (hfit : ∀ rec ∈ s.wal.log, rec.Fits) (hsize : s.keys.size ≤ 2 ^ 32) {req : RangeRequest}
    (hreq : Historical s req) :
    (∃ s₁, LiveAt qs req.revision.toUInt64 s₁) ∧
    ∀ s₁, LiveAt qs req.revision.toUInt64 s₁ → ∃ resp, range s req = .ok resp ∧
      (ShowsNothing s₁ s req req.revision.toUInt64 →
        ∀ kv ∈ resp.kvs, SoundAt req.revision.toUInt64 s₁ req kv) ∧
      (req.countOnly = false → req.limit ≤ 0 →
        (∀ kv ∈ resp.kvs, SoundAt req.revision.toUInt64 s₁ req kv) →
          ShowsNothing s₁ s req req.revision.toUInt64) := by
  refine ⟨exists_liveAt hserve hlt hreq.reached, ?_⟩
  intro s₁ hs₁
  obtain ⟨ws, vs, hcut⟩ := CutAt.of_liveAt hserve hlt hfit hs₁
  obtain ⟨resp, es, hresp, hanswer, hmem, hperm⟩ :=
    Historical.exists_response hserve hlt hfit hsize hreq hs₁
  refine ⟨resp, hresp, ?_, ?_⟩
  · intro hshows kv hkv
    obtain ⟨e, he, rfl⟩ := List.mem_map.mp (hmem kv hkv)
    obtain ⟨ks₁, hks₁⟩ := hanswer.sound.mpr hshows e.1 e.2 he
    have hentry := hanswer.entry e.1 e.2 he
    refine ⟨e.1, ks₁, hentry.matches_range, hks₁, ?_, hentry.blob_eq ks₁ hks₁⟩
    exact (hcut.settled e.1 ks₁ (aliveIn_eq_some.mp hks₁).1).2.1
  · intro hcount hlimit hall
    refine hanswer.sound.mp ?_
    intro key kv hkv
    have hresp : kv ∈ resp.kvs :=
      (hperm hcount hlimit).mem_iff.mpr (List.mem_map.mpr ⟨(key, kv), hkv, rfl⟩)
    -- the pair that the response shows has the key of the entry it comes from
    obtain ⟨key', ks₁, -, hks₁, -, rfl⟩ := hall kv hresp
    have hname := (hanswer.entry key _ hkv).named
    rw [hanswer.named key' ks₁ hks₁] at hname
    cases hname
    exact ⟨ks₁, hks₁⟩

end

/-- A key that was recreated, read in its first lifetime. -/
theorem historical_range_sound_reborn :
    ∃ s s₁ resp, serve fresh [.put { key := [1], value := [2] }, .deleteRange { key := [1] },
        .put { key := [1], value := [3] }] = some s ∧
      LiveAt [.put { key := [1], value := [2] }, .deleteRange { key := [1] },
        .put { key := [1], value := [3] }] 1 s₁ ∧
      range s { key := [1], revision := 1 } = .ok resp ∧
      ∀ kv ∈ resp.kvs, SoundAt 1 s₁ { key := [1], revision := 1 } kv := by
  have hrun : ((serve fresh [.put { key := [1], value := [2] }, .deleteRange { key := [1] },
      .put { key := [1], value := [3] }]).any fun s =>
        (serve fresh [.put { key := [1], value := [2] }]).any fun s₁ =>
          decide ((∀ rec ∈ s.wal.log, rec.Fits) ∧ s.keys.size ≤ 2 ^ 32 ∧ s.compactRev = 0 ∧
            s.currentRevision = 3 ∧ s₁.currentRevision = 1 ∧ (s₁.alive? [1]).isSome)) = true := by
    decide +kernel
  obtain ⟨s, hs, hrun⟩ := (Option.any_eq_true _ _).mp hrun
  obtain ⟨s₁, hs₁, hfacts⟩ := (Option.any_eq_true _ _).mp hrun
  obtain ⟨hfit, hsize, hcompact, hcur, hcur₁, halive⟩ := of_decide_eq_true hfacts
  have hreq : Historical s { key := [1], revision := 1 } :=
    ⟨by decide, by decide, by rw [hcompact]; decide, by rw [hcur]; decide, rfl,
      by decide, by decide, by decide, by decide⟩
  have hlive : LiveAt [.put { key := [1], value := [2] }, .deleteRange { key := [1] },
      .put { key := [1], value := [3] }] 1 s₁ := ⟨[_], _, rfl, hs₁, hcur₁⟩
  obtain ⟨resp, hresp, hsound, -⟩ :=
    (historical_range_sound hs (by decide) hfit hsize hreq).2 s₁ hlive
  refine ⟨s, s₁, resp, hs, hlive, hresp, hsound ?_⟩
  intro key ks hmatch _ _ _
  obtain rfl : key = [1] := of_decide_eq_true hmatch
  exact Option.isSome_iff_exists.mp halive

/-- In the gap between two lifetimes the later one shows: the WAL has nothing for the key at
that revision, and the merge falls back to the current blob. -/
theorem unborn_key_shown :
    ∃ s s₁ resp kv, serve fresh [.put { key := [1], value := [2] }, .deleteRange { key := [1] },
        .put { key := [1], value := [3] }] = some s ∧
      LiveAt [.put { key := [1], value := [2] }, .deleteRange { key := [1] },
        .put { key := [1], value := [3] }] 2 s₁ ∧
      s₁.alive? [1] = none ∧ range s { key := [1], revision := 2 } = .ok resp ∧
      kv ∈ resp.kvs ∧ ¬ SoundAt 2 s₁ { key := [1], revision := 2 } kv := by
  have hrun : ((serve fresh [.put { key := [1], value := [2] }, .deleteRange { key := [1] },
      .put { key := [1], value := [3] }]).any fun s =>
        (serve fresh [.put { key := [1], value := [2] }, .deleteRange { key := [1] }]).any
          fun s₁ => decide (s₁.currentRevision = 2 ∧ s₁.alive? [1] = none) &&
            (range s { key := [1], revision := 2 }).toOption.any fun resp =>
              decide (resp.kvs ≠ [])) = true := by
    decide +kernel
  obtain ⟨s, hs, hrun⟩ := (Option.any_eq_true _ _).mp hrun
  obtain ⟨s₁, hs₁, hrun⟩ := (Option.any_eq_true _ _).mp hrun
  obtain ⟨hfacts, hrun⟩ := (Bool.and_eq_true _ _).mp hrun
  obtain ⟨hcur, hdead⟩ := of_decide_eq_true hfacts
  obtain ⟨resp, hresp, hne⟩ := (Option.any_eq_true _ _).mp hrun
  obtain ⟨kv, hkv⟩ := List.exists_mem_of_ne_nil _ (of_decide_eq_true hne)
  refine ⟨s, s₁, resp, kv, hs, ⟨[_, _], _, rfl, hs₁, hcur⟩, hdead, Prog.ok_of_toOption hresp, hkv,
    ?_⟩
  intro hsound
  obtain ⟨key, ks₁, hmatch, hks₁, -⟩ := hsound
  obtain rfl : key = [1] := of_decide_eq_true hmatch
  rw [hdead] at hks₁
  cases hks₁

end Rudurru
