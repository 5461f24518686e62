import Rudurru.Recovery
import Rudurru.Storage.Legacy
import Rudurru.Storage.Walkers

/-!
# Rudurru.Server.Snapshot

The snapshot stream of the maintenance service (`src/server/maintenance.rs`): a header with the
revision and the number of keys, an entry for every alive key, all of it cut into chunks.

The number in the header is that of `state.keys`, tombstones included, while the loop after it skips
them. A reader that trusts the header finds what it promises exactly when there are no tombstones
(`snapshot_decodable_iff`).

A chunk ends when it has 64 KiB, wherever in an entry that is; the client puts the chunks together
and reads entries from the whole. So cutting and reading are separate: the chunks give back the
stream, with each chunk counting the bytes behind it, and the stream gives back the entries, if the
count in front is theirs.
-/

namespace Rudurru

open Std (ExtTreeMap)

/-! ### The stream -/

/-- `CHUNK_SIZE`. -/
def chunkSize : Nat := 64 * 1024

/-- `SnapshotResponse`; the header is always `None`. The lengths of the source are `usize` values
cast to `u64`, and a buffer is shorter than that. -/
structure SnapshotResponse where
  remainingBytes : Nat
  blob : Bytes
  deriving DecidableEq, Repr

/-- One round of the loop over `state.keys`, for an alive key. -/
def entryBytes (key value : Bytes) : Bytes :=
  u32ToLeBytes (UInt32.ofNat key.length) ++ key ++ u32ToLeBytes (UInt32.ofNat value.length) ++ value

/-- The buffer built under the read lock. -/
def StoreState.snapshotBuffer (s : StoreState) : Bytes :=
  u64ToLeBytes s.currentRevision ++ u32ToLeBytes (UInt32.ofNat s.keys.size) ++
    s.keys.toList.flatMap fun (k, ks) =>
      if ks.deleteRevision ≠ 0 then [] else entryBytes k ks.value

/-- The sending loop, from `offset` on. -/
def snapshotChunks (buf : Bytes) : Nat → Nat → List SnapshotResponse
  | 0, _ => []
  | fuel + 1, offset =>
      if offset < buf.length then
        let stop := min (offset + chunkSize) buf.length
        { remainingBytes := buf.length - stop, blob := (buf.drop offset).take (stop - offset) }
          :: snapshotChunks buf fuel stop
      else []

/-- `Maintenance::snapshot`: the messages sent to a client that reads all of them. A round sends at
least one byte, so the length of the buffer is fuel enough. -/
def StoreState.snapshot (s : StoreState) : List SnapshotResponse :=
  snapshotChunks s.snapshotBuffer s.snapshotBuffer.length 0

/-! ### Its reader -/

/-- A string with its length in front. -/
def readSized (bytes : Bytes) : Option (Bytes × Bytes) := do
  let (len, rest) ← readU32Le bytes
  cursorTake len.toNat rest

def readEntries : Nat → Bytes → Option (List (Bytes × Bytes) × Bytes)
  | 0, bytes => some ([], bytes)
  | count + 1, bytes => do
      let (key, rest) ← readSized bytes
      let (value, rest) ← readSized rest
      let (entries, rest) ← readEntries count rest
      return ((key, value) :: entries, rest)

/-- `revision(8) | count(4) | entries`, as many entries as the count says and nothing else. -/
def readSnapshot (bytes : Bytes) : Option (UInt64 × List (Bytes × Bytes)) := do
  let (revision, rest) ← readU64Le bytes
  let (count, rest) ← readU32Le rest
  let (entries, rest) ← readEntries count.toNat rest
  if rest = [] then some (revision, entries) else none

/-! ### Chunks -/

theorem flatMap_snapshotChunks {buf : Bytes} : ∀ {fuel offset : Nat},
    buf.length ≤ offset + fuel →
      (snapshotChunks buf fuel offset).flatMap (·.blob) = buf.drop offset := by
  intro fuel
  induction fuel with
  | zero =>
      intro offset h
      rw [List.drop_of_length_le (by omega)]
      rfl
  | succ fuel ih =>
      intro offset h
      rw [snapshotChunks]
      by_cases hlt : offset < buf.length
      -- a chunk is never empty, so that the fuel lasts
      · have hmove : offset < min (offset + chunkSize) buf.length := by
          rw [chunkSize]
          omega
        rw [if_pos hlt]
        simp only [List.flatMap_cons]
        rw [ih (by omega)]
        have hdrop : buf.drop (min (offset + chunkSize) buf.length)
            = (buf.drop offset).drop (min (offset + chunkSize) buf.length - offset) := by
          rw [List.drop_drop]
          congr 1
          omega
        rw [hdrop, List.take_append_drop]
      · rw [if_neg hlt, List.drop_of_length_le (by omega)]
        rfl

/-- **Each chunk says how many bytes follow it.** -/
theorem remainingBytes_snapshotChunks {buf : Bytes} : ∀ {fuel offset : Nat}
    {before after : List SnapshotResponse} {chunk : SnapshotResponse},
    buf.length ≤ offset + fuel → snapshotChunks buf fuel offset = before ++ chunk :: after →
      chunk.remainingBytes = (after.flatMap (·.blob)).length := by
  intro fuel
  induction fuel with
  | zero =>
      intro offset before after chunk _ h
      cases before <;> cases h
  | succ fuel ih =>
      intro offset before after chunk hfuel h
      rw [snapshotChunks] at h
      by_cases hlt : offset < buf.length
      · have hmove : offset < min (offset + chunkSize) buf.length := by
          rw [chunkSize]
          omega
        rw [if_pos hlt] at h
        cases before with
        | nil =>
            obtain ⟨rfl, rfl⟩ := List.cons.inj h
            rw [flatMap_snapshotChunks (by omega), List.length_drop]
        | cons first before =>
            obtain ⟨-, htail⟩ := List.cons.inj h
            exact ih (by omega) htail
      · rw [if_neg hlt] at h
        cases before <;> cases h

/-! ### Reading back -/

theorem readSized_append {b : Bytes} (h : b.length < 2 ^ 32) (s : Bytes) :
    readSized (u32ToLeBytes (UInt32.ofNat b.length) ++ (b ++ s)) = some (b, s) := by
  rw [readSized, readU32Le_append]
  simp only [Option.bind_eq_bind, Option.bind_some, toNat_ofNat_length h]
  rw [cursorTake, if_pos (by simp), List.take_left, List.drop_left]

theorem readEntries_append {entries : List (Bytes × Bytes)} (s : Bytes) :
    (∀ e ∈ entries, e.1.length < 2 ^ 32 ∧ e.2.length < 2 ^ 32) →
      readEntries entries.length (entries.flatMap (fun e => entryBytes e.1 e.2) ++ s)
        = some (entries, s) := by
  induction entries with
  | nil =>
      intro _
      rfl
  | cons e entries ih =>
      intro h
      obtain ⟨hkey, hvalue⟩ := h e (by simp)
      simp only [List.length_cons, readEntries, List.flatMap_cons, entryBytes,
        List.append_assoc, readSized_append hkey, readSized_append hvalue, Option.bind_eq_bind,
        Option.bind_some]
      have hrest := ih fun e he => h e (by simp [he])
      simp only [entryBytes, List.append_assoc] at hrest
      rw [hrest]
      rfl

theorem readSized_length {bytes b rest : Bytes} (h : readSized bytes = some (b, rest)) :
    b.length < 2 ^ 32 := by
  rw [readSized, Option.bind_eq_bind, Option.bind_eq_some_iff] at h
  obtain ⟨⟨len, tail⟩, -, h⟩ := h
  have hlen := len.toNat_lt
  dsimp only [cursorTake] at h
  split at h
  · cases h
    rw [List.length_take]
    omega
  · cases h

/-- As many entries are read as were asked for, all of them with lengths that a `u32` holds. -/
theorem readEntries_spec {count : Nat} : ∀ {bytes rest : Bytes} {entries : List (Bytes × Bytes)},
    readEntries count bytes = some (entries, rest) →
      entries.length = count ∧ ∀ e ∈ entries, e.1.length < 2 ^ 32 ∧ e.2.length < 2 ^ 32 := by
  induction count with
  | zero =>
      intro bytes rest entries h
      cases h
      simp
  | succ count ih =>
      intro bytes rest entries h
      simp only [readEntries, Option.bind_eq_bind, Option.bind_eq_some_iff] at h
      obtain ⟨⟨key, t₁⟩, hkey, ⟨value, t₂⟩, hvalue, ⟨tail, t₃⟩, htail, h⟩ := h
      cases h
      obtain ⟨hlen, hall⟩ := ih htail
      refine ⟨by rw [List.length_cons, hlen], ?_⟩
      intro e he
      rcases List.mem_cons.mp he with rfl | he
      · exact ⟨readSized_length hkey, readSized_length hvalue⟩
      · exact hall e he

/-! ### What a client reads -/

/-- The alive keys with their values, in key order. -/
def StoreState.streamEntries (s : StoreState) : List (Bytes × Bytes) :=
  (s.keys.toList.filter (·.2.isAlive)).map fun e => (e.1, e.2.value)

theorem snapshotBuffer_eq (s : StoreState) :
    s.snapshotBuffer = u64ToLeBytes s.currentRevision ++ (u32ToLeBytes (UInt32.ofNat s.keys.size)
      ++ s.streamEntries.flatMap fun e => entryBytes e.1 e.2) := by
  -- the loop skips tombstones, which the count in the header includes
  have hloop (l : List (Bytes × KeyState)) :
      (l.flatMap fun (k, ks) => if ks.deleteRevision ≠ 0 then [] else entryBytes k ks.value)
        = ((l.filter (·.2.isAlive)).map fun e => (e.1, e.2.value)).flatMap
            fun e => entryBytes e.1 e.2 := by
    induction l with
    | nil => rfl
    | cons e l ih =>
        rw [List.flatMap_cons, ih, List.filter_cons, KeyState.isAlive]
        by_cases halive : e.2.deleteRevision = 0
        · simp [halive]
        · simp [halive]
  rw [StoreState.snapshotBuffer, hloop, List.append_assoc]
  rfl

theorem flatMap_snapshot (s : StoreState) : s.snapshot.flatMap (·.blob) = s.snapshotBuffer := by
  rw [StoreState.snapshot, flatMap_snapshotChunks (by omega), List.drop_zero]

theorem mem_streamEntries {s : StoreState} {e : Bytes × Bytes} :
    e ∈ s.streamEntries ↔ ∃ ks, s.alive? e.1 = some ks ∧ ks.value = e.2 := by
  simp only [StoreState.streamEntries, List.mem_map, List.mem_filter,
    ExtTreeMap.mem_toList_iff_getElem?_eq_some, StoreState.alive?, aliveIn,
    Option.filter_eq_some_iff, Prod.exists, Prod.ext_iff]
  constructor
  · intro h
    obtain ⟨key, ks, ⟨hget, halive⟩, rfl, hvalue⟩ := h
    exact ⟨ks, ⟨hget, halive⟩, hvalue⟩
  · intro h
    obtain ⟨ks, ⟨hget, halive⟩, hvalue⟩ := h
    exact ⟨e.1, ks, ⟨hget, halive⟩, rfl, hvalue⟩

theorem pairwise_streamEntries (s : StoreState) :
    s.streamEntries.Pairwise fun a b => bytesLt a.1 b.1 = true :=
  List.pairwise_map.mpr ((pairwise_toList s.keys).sublist List.filter_sublist)

/-- **What a reader of the stream finds**: the alive entries, provided that their number is the
one in the header and the format has room for them. -/
theorem readSnapshot_snapshot_iff (s : StoreState) :
    readSnapshot (s.snapshot.flatMap (·.blob)) = some (s.currentRevision, s.streamEntries) ↔
      s.keys.size % 2 ^ 32 = s.streamEntries.length ∧
        ∀ e ∈ s.streamEntries, e.1.length < 2 ^ 32 ∧ e.2.length < 2 ^ 32 := by
  have hcount : (UInt32.ofNat s.keys.size).toNat = s.keys.size % 2 ^ 32 := UInt32.toNat_ofNat'
  rw [flatMap_snapshot, snapshotBuffer_eq, readSnapshot, readU64Le_append]
  simp only [Option.bind_eq_bind, Option.bind_some, readU32Le_append, hcount]
  constructor
  · intro h
    obtain ⟨⟨entries, rest⟩, hread, h⟩ := Option.bind_eq_some_iff.mp h
    dsimp only at h
    split at h
    · simp only [Option.some.injEq, Prod.mk.injEq, true_and] at h
      -- a reader takes as many entries as the header announces
      obtain ⟨hlen, hall⟩ := readEntries_spec hread
      rw [h] at hlen hall
      exact ⟨hlen.symm, hall⟩
    · cases h
  · intro h
    obtain ⟨hlen, hall⟩ := h
    have hread := readEntries_append [] hall
    rw [List.append_nil] at hread
    rw [hlen, hread]
    rfl

/-- **When the stream is decodable**: exactly when the keys with a tombstone do not change the
count, that is, up to a wrap of its `u32`, when there are none; and no key or value is 4 GiB long.
What a chunk says about the bytes after it is always right. -/
theorem snapshot_decodable_iff (s : StoreState) :
    ((∃ entries, readSnapshot (s.snapshot.flatMap (·.blob)) = some (s.currentRevision, entries) ∧
        (entries.Pairwise fun a b => bytesLt a.1 b.1 = true) ∧
        ∀ key value, (key, value) ∈ entries ↔ ∃ ks, s.alive? key = some ks ∧ ks.value = value) ∧
      ∀ before chunk after, s.snapshot = before ++ chunk :: after →
        chunk.remainingBytes = (after.flatMap (·.blob)).length) ↔
    s.keys.size % 2 ^ 32 = (s.keys.toList.filter (·.2.isAlive)).length ∧
      ∀ key ks, s.alive? key = some ks → key.length < 2 ^ 32 ∧ ks.value.length < 2 ^ 32 := by
  have hlen : s.streamEntries.length = (s.keys.toList.filter (·.2.isAlive)).length :=
    List.length_map _
  have hsizes : (∀ e ∈ s.streamEntries, e.1.length < 2 ^ 32 ∧ e.2.length < 2 ^ 32) ↔
      ∀ key ks, s.alive? key = some ks → key.length < 2 ^ 32 ∧ ks.value.length < 2 ^ 32 := by
    constructor
    · intro h key ks hks
      exact h (key, ks.value) (mem_streamEntries.mpr ⟨ks, hks, rfl⟩)
    · intro h e he
      obtain ⟨ks, hks, hvalue⟩ := mem_streamEntries.mp he
      exact hvalue ▸ h e.1 ks hks
  rw [← hlen, ← hsizes, ← readSnapshot_snapshot_iff]
  constructor
  · intro h
    -- two lists in key order with the same members are the same list
    obtain ⟨⟨entries, hread, hsorted, hmem⟩, -⟩ := h
    rw [hread, eq_of_ascending hsorted (pairwise_streamEntries s) fun e =>
      (hmem e.1 e.2).trans mem_streamEntries.symm]
  · intro h
    refine ⟨⟨_, h, pairwise_streamEntries s, fun key value => mem_streamEntries⟩, ?_⟩
    intro before chunk after hsplit
    exact remainingBytes_snapshotChunks (by omega) hsplit

/-- A key put and deleted: the header announces an entry, and none follows. -/
theorem tombstone_is_announced :
    ∃ s, serve fresh [.put { key := [107], value := [118] },
        .deleteRange { key := [107] }] = some s ∧
      ¬ ∃ entries,
        readSnapshot (s.snapshot.flatMap (·.blob)) = some (s.currentRevision, entries) := by
  have hrun : (serve fresh [.put { key := [107], value := [118] },
      .deleteRange { key := [107] }]).any (fun s =>
        decide (readSnapshot s.snapshotBuffer = none)) = true := by
    decide +kernel
  obtain ⟨s, hs, hnone⟩ := (Option.any_eq_true _ _).mp hrun
  refine ⟨s, hs, ?_⟩
  intro h
  obtain ⟨entries, h⟩ := h
  rw [flatMap_snapshot, of_decide_eq_true hnone] at h
  cases h

end Rudurru
