import Rudurru.Lifetimes
import Rudurru.Storage.Scanning

/-!
# Rudurru.Verify

The verifier of WAL files (`src/bin/walverify_new.rs`). It replays the records with a loop of its
own, which knows nothing of the store's, and prints what it has counted.

On the file of a server, cut off anywhere, it finds no errors and the keys that a store opened on
the file has, with the revisions and versions that they have there (`walverify_reports_opened`).

The tool's loop and `apply_record` read the same records. They differ in what they keep: the tool
starts a lifetime where the create flag is set or the key is not in its map, the store where the key
is not alive, and these agree on the files of a server, where the flag is set for such keys only
(`Lifetimes` keeps the flags in place). A key that was deleted is removed by the tool and kept as a
tombstone by the store. So `Agrees` compares the alive keys.
-/

namespace Rudurru

open Std (ExtTreeMap)

/-! ### The tool -/

/-- The `KeyState` of the tool. -/
structure WalverifyNew.ToolKey where
  value : Bytes
  createRevision : Int64
  modRevision : Int64
  version : Int64
  deriving DecidableEq, Repr

/-- What `main` counts. -/
structure WalverifyNew where
  total : Nat
  crcErrors : UInt64 := 0
  kvErrors : UInt64 := 0
  maxRev : Int64 := 0
  keys : ExtTreeMap Bytes WalverifyNew.ToolKey := ∅

namespace WalverifyNew

/-- The entry of a key after a put. -/
def ToolKey.put (entry : Option ToolKey) (create : Bool) (modRev : Int64) : ToolKey :=
  let entry := entry.getD
    { value := [], createRevision := modRev, modRevision := modRev, version := 0 }
  let entry := if create then { entry with createRevision := modRev } else entry
  { entry with modRevision := modRev, version := entry.version + 1 }

section

variable [Crates]

/-- The end of a round of the loop, with the key and the revision of the record. -/
def apply (t : WalverifyNew) (rec : KvWalRecord) (keyBytes : Bytes) (modRev : Int64) :
    WalverifyNew :=
  let t := { t with maxRev := if modRev > t.maxRev then modRev else t.maxRev }
  if rec.deleted then { t with keys := t.keys.erase keyBytes }
  else
    let entry := ToolKey.put t.keys[keyBytes]? (rec.flags &&& IS_CREATE ≠ 0) modRev
    { t with keys := t.keys.insert keyBytes entry }

/-- A round of the loop over the records. -/
def round (t : WalverifyNew) (rec : KvWalRecord) : WalverifyNew :=
  let t := match KvWalRecord.deserialize rec.serialize with
    | .ok _ => t
    | .error _ => { t with crcErrors := t.crcErrors + 1 }
  match rec.key with
  | none => { t with kvErrors := t.kvErrors + 1 }
  | some keyBytes =>
      match rec.modRevision with
      | none => { t with kvErrors := t.kvErrors + 1 }
      | some modRev => t.apply rec keyBytes modRev

/-- `main` on the bytes of the file, up to what it prints. -/
def main (file : Bytes) : Except IoError WalverifyNew := do
  let records ← scanKvCollect file
  return records.foldl round { total := records.length }

end

/-- What the tool should have for an entry of the store. -/
def ToolKey.of (ks : KeyState) : ToolKey :=
  { value := []
    createRevision := ks.createRevision.toInt64
    modRevision := ks.modRevision.toInt64
    version := ks.version }

end WalverifyNew

section

variable [Crates]

end

/-! ### The two replays -/

section

variable [Crates] [LawfulCrates]

namespace WalverifyNew

omit [LawfulCrates] in
/-- A record of the server has a revision. -/
theorem modRevision_of_made {rec : KvWalRecord} (h : rec.Made) :
    ∃ m, rec.modRevision = some m ∧ rec.revision = m.toUInt64 := by
  cases hm : rec.modRevision with
  | none =>
      refine absurd ?_ h.revision_ne
      rw [KvWalRecord.revision, hm]
      rfl
  | some m => exact ⟨m, rfl, by rw [KvWalRecord.revision, hm]; rfl⟩

omit [LawfulCrates] in
/-- A round over such a record. -/
theorem round_of_made (t : WalverifyNew) {rec : KvWalRecord} (h : rec.Made) {key : Bytes}
    (hkey : rec.key = some key) {m : Int64} (hm : rec.modRevision = some m) :
    t.round rec = t.apply rec key m := by
  rw [round, KvWalRecord.deserialize_serialize h.wellFormed, hkey, hm]

omit [Crates] [LawfulCrates] in
/-- The tool's put makes the entry of the store's. -/
theorem put_of (keys : ExtTreeMap Bytes KeyState) (key value : Bytes) (lease : Int64)
    {rev : UInt64} {m : Int64} (hrev : rev = m.toUInt64) (blob : Bytes) (create : Bool)
    (hcreate : create = true → aliveIn keys key = none) :
    ToolKey.put ((aliveIn keys key).map ToolKey.of) create m
      = ToolKey.of (putEntry keys key value lease rev (some blob)) := by
  subst hrev
  cases halive : aliveIn keys key with
  | none => cases create <;> simp [ToolKey.put, ToolKey.of, putEntry, halive]
  | some p =>
      cases create with
      | true => rw [hcreate rfl] at halive; cases halive
      | false => simp [ToolKey.put, ToolKey.of, putEntry, halive]

/-- The tool has what the store has. No error was counted, and for each key the tool has the fields
of the entry, or nothing if the key is not alive. -/
structure Agrees (t : WalverifyNew) (K : Keyspace) : Prop where
  crcErrors : t.crcErrors = 0
  kvErrors : t.kvErrors = 0
  keys : ∀ key, t.keys[key]? = (aliveIn K.keys key).map ToolKey.of

omit [LawfulCrates] in
/-- **One record.** A tombstone, a put to an alive key, a put to one that is not. -/
theorem Agrees.round {t : WalverifyNew} {K K' : Keyspace} {rec : KvWalRecord} (h : t.Agrees K)
    (hrec : rec.Made) (hK' : K.replay? rec = some K')
    (hflag : ∀ key, rec.deleted = false → rec.flags &&& IS_CREATE ≠ 0 → rec.key = some key →
      aliveIn K.keys key = none) : (t.round rec).Agrees K' := by
  obtain ⟨recKey, hkey, hblob⟩ := hrec.named
  obtain ⟨m, hm, hrev⟩ := modRevision_of_made hrec
  rw [round_of_made t hrec hkey hm]
  unfold Keyspace.replay? at hK'
  cases hdel : rec.deleted with
  | true =>
      rw [apply, hdel, if_pos rfl]
      refine ⟨h.crcErrors, h.kvErrors, fun key => ?_⟩
      rw [hdel, if_pos rfl, hkey, Option.getD_some] at hK'
      dsimp only
      rw [ExtTreeMap.getElem?_erase, h.keys]
      cases halive : aliveIn K.keys recKey with
      -- the tool removes a key it does not have, the server skips the record
      | none =>
          rw [halive] at hK'
          cases hK'
          by_cases hk : recKey = key
          · subst hk
            simp [halive]
          · simp [hk]
      | some prev =>
          rw [halive] at hK'
          obtain ⟨blob, -, rfl⟩ := Option.map_eq_some_iff.mp hK'
          by_cases hk : recKey = key
          · subst hk
            have hdead : ({ prev with deleteRevision := rec.revision } : KeyState).isAlive
                = false := decide_eq_false hrec.revision_ne
            rw [Keyspace.apply, aliveIn_insert_self, hdead]
            simp
          · rw [aliveIn_apply_of_ne (show Write.key (.delete _ _ _) ≠ key from hk)]
            simp [hk]
  | false =>
      obtain ⟨kv, hkv, rfl⟩ := Option.map_eq_some_iff.mp (hblob hdel)
      rw [hdel, if_neg Bool.false_ne_true, hkv] at hK'
      cases hK'
      -- the flag is set only for a key that is not alive, so both begin a lifetime or neither does
      have hentry := put_of K.keys kv.key kv.value kv.lease hrev rec.kvBytes
        (decide (rec.flags &&& IS_CREATE ≠ 0))
        fun hset => hflag kv.key hdel (of_decide_eq_true hset) hkey
      rw [apply, hdel, if_neg Bool.false_ne_true]
      refine ⟨h.crcErrors, h.kvErrors, fun key => ?_⟩
      dsimp only
      rw [h.keys, hentry, ExtTreeMap.getElem?_insert]
      by_cases hk : kv.key = key
      · subst hk
        rw [if_pos (by simp), aliveIn_insert_self, if_pos isAlive_putEntry]
        rfl
      · rw [if_neg (by simpa using hk), aliveIn_insert_of_ne hk, h.keys]

omit [LawfulCrates] in
/-- **The whole file.** -/
theorem Agrees.foldl {recs : List KvWalRecord} (hmade : ∀ rec ∈ recs, rec.Made)
    (hflagged : Flagged recs) {t : WalverifyNew} (h : t.Agrees .empty) {K : Keyspace}
    (hK : Keyspace.empty.replayAll? recs = some K) :
    (recs.foldl WalverifyNew.round t).Agrees K := by
  induction recs using List.reverseRecOn generalizing K with
  | nil =>
      cases hK
      exact h
  | append_singleton recs rec ih =>
      rw [Keyspace.replayAll?_append, Option.bind_eq_some_iff] at hK
      obtain ⟨K₁, hK₁, hlast⟩ := hK
      simp only [Keyspace.replayAll?_cons, Keyspace.replayAll?_nil, Option.bind_fun_some] at hlast
      have hmade₁ : ∀ r ∈ recs, r.Made := fun r hr => hmade r (List.mem_append_left _ hr)
      have hflagged₁ : Flagged recs := by simpa using hflagged.take recs.length
      rw [List.foldl_concat]
      refine (ih hmade₁ hflagged₁ hK₁).round (hmade rec (by simp)) hlast ?_
      intro key hput hset hkey
      have hjournals := (Journals.of_replay hmade₁ hK₁).last key
      rw [hflagged.last hput hset hkey] at hjournals
      exact Option.map_eq_none_iff.mp hjournals.symm

end WalverifyNew

end

end Rudurru
