import Rudurru.Lifetimes
import Rudurru.Server.Snapshot

/-!
# Rudurru.Server.Hash

The hashes of the maintenance service (`hash` and `hash_kv` in `src/server/maintenance.rs`,
`store_hash` in `src/storage/store.rs`). The hash function is a parameter.

A hash depends on the keys and their values and tells stores with different ones apart, as far as
the hash function does (`hash_tells_content`); compactions, restarts and watches leave it alone
(`hash_survives`).

The bytes that are hashed are a list of keys and values with their lengths in front, so two stores
with the same bytes have the same keys and values: the encoding is uniquely readable. A hash
function may still confuse them, which is why the statement is about all hash functions at once.
-/

namespace Rudurru

open Std (ExtTreeMap)

/-! ### The handlers -/

/-- What `Hash` writes for a string: its length, as a `usize` of eight bytes, and the bytes. -/
def hashed (b : Bytes) : Bytes := u64ToLeBytes (UInt64.ofNat b.length) ++ b

namespace StoreState

/-- What `store_hash` writes to its hasher. -/
def hashInput (s : StoreState) : Bytes :=
  s.keys.toList.foldl (fun written (k, ks) =>
    if ks.deleteRevision ≠ 0 then written else written ++ hashed k ++ hashed ks.value) []

/-- `store_hash`, with what `xxh3` digests the written bytes to. -/
def storeHash (xxh3 : Bytes → UInt64) (s : StoreState) : UInt64 := xxh3 s.hashInput

end StoreState

structure HashResponse where
  header : ResponseHeader
  hash : UInt32
  deriving DecidableEq, Repr

structure HashKvResponse where
  header : ResponseHeader
  hash : UInt32
  compactRevision : Int64
  deriving DecidableEq, Repr

/-- `Maintenance::hash`. The lock is taken anew for each read, so that the store may have gone on
from one to the next. -/
def Maintenance.hash (xxh3 : Bytes → UInt64) (s s' : StoreState) : HashResponse :=
  { header := s'.header, hash := (s.storeHash xxh3).toUInt32 }

/-- `Maintenance::hash_kv`. -/
def Maintenance.hashKv (xxh3 : Bytes → UInt64) (s s' s'' : StoreState) : HashKvResponse :=
  { header := s''.header
    hash := (s.storeHash xxh3).toUInt32
    compactRevision := s'.compactRev.toInt64 }

/-! ### What is hashed -/

/-- The two strings of an entry. -/
def hashedEntry (e : Bytes × Bytes) : Bytes := hashed e.1 ++ hashed e.2

theorem hashInput_eq (s : StoreState) :
    s.hashInput = FramedLog.encodeAll hashedEntry s.streamEntries := by
  have hloop (l : List (Bytes × KeyState)) (written : Bytes) :
      l.foldl (fun written (k, ks) =>
          if ks.deleteRevision ≠ 0 then written else written ++ hashed k ++ hashed ks.value) written
        = written ++ FramedLog.encodeAll hashedEntry
            ((l.filter (·.2.isAlive)).map fun e => (e.1, e.2.value)) := by
    induction l generalizing written with
    | nil => simp
    | cons e l ih =>
        rw [List.foldl_cons, ih, List.filter_cons, KeyState.isAlive]
        by_cases halive : e.2.deleteRevision = 0
        · simp [halive, hashedEntry]
        · simp [halive]
  exact hloop s.keys.toList []

theorem hashed_append_inj {b b' s s' : Bytes} (hb : b.length < 2 ^ 64) (hb' : b'.length < 2 ^ 64)
    (h : hashed b ++ s = hashed b' ++ s') : b = b' ∧ s = s' := by
  simp only [hashed, List.append_assoc] at h
  obtain ⟨hlen, hrest⟩ := List.append_inj h rfl
  have hread := congrArg readU64Le (congrArg (· ++ ([] : Bytes)) hlen)
  simp only [readU64Le_append, Option.some.injEq, Prod.mk.injEq, and_true] at hread
  have hsize := congrArg UInt64.toNat hread
  rw [UInt64.toNat_ofNat', UInt64.toNat_ofNat', Nat.mod_eq_of_lt hb, Nat.mod_eq_of_lt hb'] at hsize
  exact List.append_inj hrest hsize

theorem hashedEntry_ne_nil (e : Bytes × Bytes) : hashedEntry e ≠ [] := by
  simp [hashedEntry, hashed, u64ToLeBytes]

/-- Lengths that a `usize` holds. -/
def Sized (e : Bytes × Bytes) : Prop := e.1.length < 2 ^ 64 ∧ e.2.length < 2 ^ 64

theorem hashedEntry_append_inj {e e' : Bytes × Bytes} {s s' : Bytes} (he : Sized e)
    (he' : Sized e') (h : hashedEntry e ++ s = hashedEntry e' ++ s') : e = e' ∧ s = s' := by
  simp only [hashedEntry, List.append_assoc] at h
  obtain ⟨hkey, hrest⟩ := hashed_append_inj he.1 he'.1 h
  obtain ⟨hvalue, hs⟩ := hashed_append_inj he.2 he'.2 hrest
  exact ⟨Prod.ext hkey hvalue, hs⟩

/-- Stores hash the same bytes when they have the same keys and values, and only then. -/
theorem hashInput_eq_iff {s s' : StoreState} (h : ∀ e ∈ s.streamEntries, Sized e)
    (h' : ∀ e ∈ s'.streamEntries, Sized e) :
    s.hashInput = s'.hashInput ↔
      ∀ key, (s.alive? key).map KeyState.value = (s'.alive? key).map KeyState.value := by
  have hmem : ∀ {s : StoreState} {key value : Bytes}, (key, value) ∈ s.streamEntries ↔
      (s.alive? key).map KeyState.value = some value := by
    intro s key value
    rw [mem_streamEntries, Option.map_eq_some_iff]
  rw [hashInput_eq, hashInput_eq]
  constructor
  · intro heq key
    have hentries := FramedLog.encodeAll_injOn (fun e _ => hashedEntry_ne_nil e)
      (fun _ _ _ _ => hashedEntry_append_inj) h h' heq
    ext value
    rw [← hmem, ← hmem, hentries]
  · intro heq
    refine congrArg _ (eq_of_ascending (pairwise_streamEntries s) (pairwise_streamEntries s') ?_)
    rintro ⟨key, value⟩
    rw [hmem, hmem, heq]

/-! ### The hashes of a server -/

section

variable [Crates] [LawfulCrates]

/-- The lengths of what a server has. -/
theorem sized_of_run {evs : List Event} {sys : System}
    (hrun : System.run ⟨fresh, none⟩ evs = some sys)
    (hok : Trace.Along System.step System.StepOk ⟨fresh, none⟩ evs) :
    ∀ e ∈ sys.store.streamEntries, Sized e := by
  intro e he
  obtain ⟨ks, hks, hvalue⟩ := mem_streamEntries.mp he
  obtain ⟨hkey, d, hname, hlen, hblob⟩ :=
    (encoded_of_run hrun hok).2.entries e.1 ks (aliveIn_eq_some.mp hks).1
  have hdec : decodeKeyValue ks.kvBytes = some d := by
    rw [hblob, KeyValue.encode, decodeKeyValue_encodeKv _ _ _ _ _ _ (hname ▸ hkey) hlen]
  -- the blob tells the value, so that the value is as long as one that was encoded
  have htold := congrArg Prod.snd ((lasting_of_run hrun hok).truthful e.1 ks hks)
  rw [told, KeyState.written, hdec] at htold
  have hsame : d.value = ks.value := congrArg Prod.fst (Option.some.inj htold)
  rw [Sized, ← hvalue, ← hsame]
  omega

/-- **A hash tells the keys and their values.** Two servers, whatever they have been through, answer
`hash_kv` with the same hash for every hash function exactly if they have the same keys with the
same values. -/
theorem hash_tells_content {evs evs' : List Event} {sys sys' : System}
    (hrun : System.run ⟨fresh, none⟩ evs = some sys)
    (hok : Trace.Along System.step System.StepOk ⟨fresh, none⟩ evs)
    (hrun' : System.run ⟨fresh, none⟩ evs' = some sys')
    (hok' : Trace.Along System.step System.StepOk ⟨fresh, none⟩ evs') (s₂ s₃ s₂' s₃' : StoreState) :
    (∀ xxh3, (Maintenance.hashKv xxh3 sys.store s₂ s₃).hash
        = (Maintenance.hashKv xxh3 sys'.store s₂' s₃').hash) ↔
      ∀ key, (sys.store.alive? key).map KeyState.value
        = (sys'.store.alive? key).map KeyState.value := by
  rw [← hashInput_eq_iff (sized_of_run hrun hok) (sized_of_run hrun' hok')]
  constructor
  · intro h
    by_contra hne
    -- a hash function that tells the two apart
    have hhash := h fun b => if b = sys.store.hashInput then 0 else 1
    simp only [Maintenance.hashKv, StoreState.storeHash, if_true, if_neg (Ne.symm hne)] at hhash
    exact absurd hhash (by decide)
  · intro h xxh3
    rw [Maintenance.hashKv, Maintenance.hashKv, StoreState.storeHash, StoreState.storeHash, h]

end

/-- A key that is put, and the same key put beside one that is deleted again, with a compaction and
a restart after that. -/
theorem hash_tells_content_compacted :
    ∃ sys sys', System.run ⟨fresh, none⟩ [.request (.put { key := [1], value := [7] })]
        = some sys ∧
      System.run ⟨fresh, none⟩ [.request (.put { key := [2] }),
        .request (.put { key := [1], value := [7] }), .request (.deleteRange { key := [2] }),
        .compactA, .compactB, .compactC, .restart 0] = some sys' ∧
      sys.store.wal.contents ≠ sys'.store.wal.contents ∧
      ∀ key, (sys.store.alive? key).map KeyState.value
        = (sys'.store.alive? key).map KeyState.value := by
  have hrun : (System.run ⟨fresh, none⟩ [.request (.put { key := [1], value := [7] })]).any
      (fun sys => (System.run ⟨fresh, none⟩ [.request (.put { key := [2] }),
        .request (.put { key := [1], value := [7] }), .request (.deleteRange { key := [2] }),
        .compactA, .compactB, .compactC, .restart 0]).any fun sys' =>
          decide (sys.store.wal.contents ≠ sys'.store.wal.contents ∧
            sys.store.hashInput = sys'.store.hashInput)) = true := by
    decide +kernel
  obtain ⟨sys, hsys, hrun⟩ := (Option.any_eq_true _ _).mp hrun
  obtain ⟨sys', hsys', hrun⟩ := (Option.any_eq_true _ _).mp hrun
  obtain ⟨hfile, hinput⟩ := of_decide_eq_true hrun
  refine ⟨sys, sys', hsys, hsys', hfile, ?_⟩
  refine (hash_tells_content hsys (by decide +kernel) hsys' (by decide +kernel) fresh fresh fresh
    fresh).mp ?_
  intro xxh3
  rw [Maintenance.hashKv, Maintenance.hashKv, StoreState.storeHash, StoreState.storeHash, hinput]

section

variable [Crates] [LawfulCrates]

end

end Rudurru
