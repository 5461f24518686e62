import Rudurru.Storage.Store
import Rudurru.Storage.WalSound

/-!
# Rudurru.Storage.Keyspace

What the store is for, without requests, watchers or a file: a **keyspace** that changes one
write at a time.

A `Write` knows the alive entry it replaces, so its WAL record is determined by the write
alone, while its effect (`Keyspace.apply`) is determined by the keyspace it meets. A `Run` is
a sequence of writes each of which met the entry it names. Replaying the records of a run
repeats the run (`Run.replay`), as long as every record fits its format: this is the one place
where the metadata `apply_record` recomputes is compared with the metadata the live path
computed.
-/

namespace Rudurru

open Std (ExtTreeMap)

/-- The part of the store that is rebuilt from the WAL: the map and the count of alive keys. -/
@[ext] structure Keyspace where
  keys : ExtTreeMap Bytes KeyState
  keyCount : Nat

/-- One change of one key. -/
inductive Write
  | put (key value : Bytes) (lease : Int64) (rev : UInt64) (prev : Option KeyState)
  | delete (key : Bytes) (rev : UInt64) (prev : KeyState)
  deriving DecidableEq

namespace Write

def key : Write → Bytes
  | put key _ _ _ _ => key
  | delete key _ _ => key

def rev : Write → UInt64
  | put _ _ _ rev _ => rev
  | delete _ rev _ => rev

end Write

namespace Keyspace

/-- The keyspace of a fresh store. -/
def empty : Keyspace := ⟨∅, 0⟩

/-- The effect of a write. -/
def apply (K : Keyspace) : Write → Keyspace
  | .put key value lease rev _ =>
      { keys := K.keys.insert key (putEntry K.keys key value lease rev none)
        keyCount := if (aliveIn K.keys key).isNone then K.keyCount + 1 else K.keyCount }
  | .delete key rev prev =>
      { keys := K.keys.insert key { prev with deleteRevision := rev }
        keyCount := K.keyCount - 1 }

/-- The write meets the entry it names, and a deletion can patch that entry's blob. -/
def Accepts (K : Keyspace) : Write → Prop
  | .put key _ _ _ prev => aliveIn K.keys key = prev
  | .delete key rev prev =>
      aliveIn K.keys key = some prev ∧ (withModRevision prev.kvBytes rev).isSome

/-- A sequence of writes from one keyspace to another. -/
inductive Run : Keyspace → List Write → Keyspace → Prop
  | nil {K} : Run K [] K
  | cons {K K' w ws} : K.Accepts w → Run (K.apply w) ws K' → Run K (w :: ws) K'

theorem Run.single {K : Keyspace} {w : Write} (h : K.Accepts w) : Run K [w] (K.apply w) :=
  .cons h .nil

theorem Run.append {K K' K'' : Keyspace} {ws vs : List Write} (h : Run K ws K')
    (h' : Run K' vs K'') : Run K (ws ++ vs) K'' := by
  induction h with
  | nil => exact h'
  | cons hw _ ih => exact .cons hw (ih h')

theorem Run.of_append {K K'' : Keyspace} {ws vs : List Write} (h : Run K (ws ++ vs) K'') :
    ∃ K', Run K ws K' ∧ Run K' vs K'' := by
  induction ws generalizing K with
  | nil => exact ⟨K, .nil, h⟩
  | cons w ws ih =>
      cases h with
      | cons hw hrest =>
          obtain ⟨K', hws, hvs⟩ := ih hrest
          exact ⟨K', .cons hw hws, hvs⟩

/-- A run ends in the one keyspace its writes lead to. -/
theorem Run.eq_foldl {K K' : Keyspace} {ws : List Write} (h : Run K ws K') :
    K' = ws.foldl apply K := by
  induction h with
  | nil => rfl
  | cons _ _ ih => exact ih

/-- A property that every write of the run keeps holds at its end. -/
theorem Run.invariant {P : Keyspace → Prop} {K K' : Keyspace} {ws : List Write}
    (h : Run K ws K') (h₀ : P K)
    (hstep : ∀ K, ∀ w ∈ ws, P K → K.Accepts w → P (K.apply w)) : P K' := by
  induction h with
  | nil => exact h₀
  | @cons K K' w ws hw _ ih =>
      exact ih (hstep K w (by simp) h₀ hw) fun K v hv => hstep K v (by simp [hv])

/-- A write leaves the other keys alone. -/
theorem getElem?_apply_of_ne {K : Keyspace} {w : Write} {key : Bytes} (h : w.key ≠ key) :
    (K.apply w).keys[key]? = K.keys[key]? := by
  cases w with
  | put k value lease rev prev =>
      exact ExtTreeMap.getElem?_insert.trans (if_neg (by simpa [Write.key] using h))
  | delete k rev prev =>
      exact ExtTreeMap.getElem?_insert.trans (if_neg (by simpa [Write.key] using h))

theorem Run.getElem?_of_not_mem {K K' : Keyspace} {ws : List Write} (h : Run K ws K')
    {key : Bytes} (hkey : key ∉ ws.map Write.key) : K'.keys[key]? = K.keys[key]? := by
  refine h.invariant (P := fun K' => K'.keys[key]? = K.keys[key]?) rfl ?_
  intro K' w hw hK' _
  rw [getElem?_apply_of_ne ?_]
  · exact hK'
  · rintro rfl
    exact hkey (List.mem_map_of_mem hw)

/-! ### Replay -/

variable [Crates]

/-- `apply_record` on the keyspace; `none` stands for the panic of `apply_delete`. -/
def replay? (K : Keyspace) (rec : KvWalRecord) : Option Keyspace :=
  if rec.deleted then
    match aliveIn K.keys (rec.key.getD []) with
    | none => some K
    | some prev =>
        (withModRevision prev.kvBytes rec.revision).map fun _ =>
          K.apply (.delete (rec.key.getD []) rec.revision prev)
  else
    match decodeKeyValue rec.kvBytes with
    | none => some K
    | some kv =>
        some { keys := K.keys.insert kv.key
                 (putEntry K.keys kv.key kv.value kv.lease rec.revision (some rec.kvBytes))
               keyCount := if (aliveIn K.keys kv.key).isNone then K.keyCount + 1
                 else K.keyCount }

/-- What replaying a record can do: nothing, a deletion, or a put of what the blob says. -/
theorem replay?_cases {K K' : Keyspace} {rec : KvWalRecord} (h : K.replay? rec = some K') :
    K' = K ∨
      (∃ prev, aliveIn K.keys (rec.key.getD []) = some prev ∧
        K' = K.apply (.delete (rec.key.getD []) rec.revision prev)) ∨
      ∃ kv n, rec.deleted = false ∧ decodeKeyValue rec.kvBytes = some kv ∧
        K' = ⟨K.keys.insert kv.key
          (putEntry K.keys kv.key kv.value kv.lease rec.revision (some rec.kvBytes)), n⟩ := by
  unfold replay? at h
  split at h
  · split at h
    · cases h
      exact .inl rfl
    · next prev hprev =>
        obtain ⟨blob, -, rfl⟩ := Option.map_eq_some_iff.mp h
        exact .inr (.inl ⟨prev, hprev, rfl⟩)
  · next hput =>
      split at h
      · cases h
        exact .inl rfl
      · next kv hkv =>
          cases h
          exact .inr (.inr ⟨kv, _, Bool.eq_false_iff.mpr hput, hkv, rfl⟩)

/-- Replay a list of records. -/
def replayAll? (K : Keyspace) (recs : List KvWalRecord) : Option Keyspace :=
  recs.foldlM replay? K

@[simp] theorem replayAll?_nil (K : Keyspace) : K.replayAll? [] = some K := rfl

@[simp] theorem replayAll?_cons (K : Keyspace) (rec : KvWalRecord) (recs : List KvWalRecord) :
    K.replayAll? (rec :: recs) = (K.replay? rec).bind fun K' => K'.replayAll? recs := rfl

/-- A property that every record keeps holds after all of them. -/
theorem replayAll?_invariant {P : Keyspace → Prop} {K K' : Keyspace} {recs : List KvWalRecord}
    (h : K.replayAll? recs = some K') (h₀ : P K)
    (hstep : ∀ K K', ∀ rec ∈ recs, P K → K.replay? rec = some K' → P K') : P K' := by
  induction recs generalizing K with
  | nil =>
      cases h
      exact h₀
  | cons rec recs ih =>
      rw [replayAll?_cons, Option.bind_eq_some_iff] at h
      obtain ⟨K₁, hK₁, hrest⟩ := h
      exact ih hrest (hstep K K₁ rec (by simp) h₀ hK₁) fun K K' r hr => hstep K K' r (by simp [hr])

theorem replayAll?_append (K : Keyspace) (recs recs' : List KvWalRecord) :
    K.replayAll? (recs ++ recs')
      = (K.replayAll? recs).bind fun K' => K'.replayAll? recs' := by
  simp only [replayAll?, List.foldlM_append]
  rfl

end Keyspace

/-! ### The record of a write -/

variable [Crates]

/-- The WAL record of a write. -/
def Write.record : Write → KvWalRecord
  | .put key value lease rev prev => putRecord key value lease rev prev
  | .delete key rev prev => deleteRecord key prev rev

/-- The event of a write. -/
def Write.event : Write → WatchEvent
  | .put key value lease rev prev =>
      { revision := rev, eventType := .put, key,
        kvBytes := (putRecord key value lease rev prev).kvBytes
        prevKvBytes := (prev.map (·.kvBytes)).getD [] }
  | .delete key rev prev =>
      { revision := rev, eventType := .delete, key,
        kvBytes := (withModRevision prev.kvBytes rev).getD []
        prevKvBytes := prev.kvBytes }

/-- A watcher after the events of some writes. -/
def notifyWrites (ws : List Write) (reg : WatchRegistration) : WatchRegistration :=
  ws.foldl (fun reg w => StoreState.notifyWatcher w.event reg) reg

theorem notifyWrites_append (ws vs : List Write) (reg : WatchRegistration) :
    notifyWrites (ws ++ vs) reg = notifyWrites vs (notifyWrites ws reg) :=
  List.foldl_append

/-- Is the watcher notified of an event? -/
def WatchRegistration.isSent (reg : WatchRegistration) (event : WatchEvent) : Bool :=
  matchesRange reg.bound event.key && StoreState.passesFilters reg.filters event.eventType
    && reg.startRevision ≤ event.revision

/-- The event as it is sent to the watcher. -/
def WatchRegistration.strip (reg : WatchRegistration) (event : WatchEvent) : WatchEvent :=
  if reg.prevKv then event else { event with prevKvBytes := [] }

omit [Crates] in
theorem notifyWatcher_spec (event : WatchEvent) (reg : WatchRegistration) :
    StoreState.notifyWatcher event reg
      = { reg with sender := reg.sender ++ ([event].filter reg.isSent).map reg.strip } := by
  unfold StoreState.notifyWatcher
  -- the three reasons not to be told, in the order of the source
  split
  · next hrange => simp_all [WatchRegistration.isSent]
  split
  · next hstart => simp [WatchRegistration.isSent, UInt64.not_le.mpr hstart]
  split
  · next hfilter => simp_all [WatchRegistration.isSent]
  · next hrange hstart hfilter =>
      have hsent : reg.isSent event = true := by
        simp only [Bool.not_eq_true', Bool.not_eq_false] at hrange hfilter
        simp [WatchRegistration.isSent, hrange, hfilter, UInt64.not_lt.mp hstart]
      simp [hsent, WatchRegistration.strip]

/-- **What a watcher is sent of some writes.** -/
theorem notifyWrites_spec (ws : List Write) (reg : WatchRegistration) :
    notifyWrites ws reg
      = { reg with
          sender := reg.sender ++ ((ws.map Write.event).filter reg.isSent).map reg.strip } := by
  induction ws generalizing reg with
  | nil => simp [notifyWrites]
  | cons w ws ih =>
      have hsplit : ((w :: ws).map Write.event).filter reg.isSent
          = [w.event].filter reg.isSent ++ (ws.map Write.event).filter reg.isSent :=
        List.filter_append [w.event] (ws.map Write.event)
      have hrest := ih (StoreState.notifyWatcher w.event reg)
      rw [notifyWatcher_spec] at hrest
      rw [notifyWrites, List.foldl_cons, ← notifyWrites, notifyWatcher_spec, hrest, hsplit,
        List.map_append, ← List.append_assoc]
      rfl

theorem kvBytes_putRecord (key value : Bytes) (lease : Int64) (rev : UInt64)
    (keys : ExtTreeMap Bytes KeyState) :
    (putRecord key value lease rev (aliveIn keys key)).kvBytes
      = (putEntry keys key value lease rev none).kvBytes := by
  simp only [putRecord, kvBytes_new, putEntry, Option.getD_none, makeKvBytes]

theorem putEntry_some (key value : Bytes) (lease : Int64) (rev : UInt64)
    (keys : ExtTreeMap Bytes KeyState) :
    putEntry keys key value lease rev
        (some (putRecord key value lease rev (aliveIn keys key)).kvBytes)
      = putEntry keys key value lease rev none := by
  rw [kvBytes_putRecord]
  simp [putEntry]

theorem deleted_putRecord (key value : Bytes) (lease : Int64) (rev : UInt64)
    (prev : Option KeyState) : (putRecord key value lease rev prev).deleted = false := by
  simp only [putRecord, KvWalRecord.deleted, flags_new]
  split <;> split <;> decide

theorem deleted_deleteRecord (key : Bytes) (p : KeyState) (rev : UInt64) :
    (deleteRecord key p rev).deleted = true := by
  simp only [deleteRecord, KvWalRecord.deleted, flags_new]
  split <;> decide

namespace Write

variable [LawfulCrates]

/-- The record of a write that fits is well formed and names the write's key and revision. -/
theorem record_spec {w : Write} (h : w.record.Fits) :
    w.record.WellFormed ∧ w.record.key = some w.key ∧ w.record.revision = w.rev := by
  cases w with
  | put key value lease rev prev =>
      obtain ⟨hwf, hkey, hrev, -⟩ := KvWalRecord.Fits.new_spec h
      exact ⟨hwf, hkey, hrev.trans rev.toUInt64_toInt64⟩
  | delete key rev prev =>
      obtain ⟨hwf, hkey, hrev, -⟩ := KvWalRecord.Fits.new_spec h
      exact ⟨hwf, hkey, hrev.trans rev.toUInt64_toInt64⟩

end Write

namespace Keyspace

variable [LawfulCrates]

/-- **Replaying the record of a write repeats the write.** The metadata that replay computes anew is
that of the live path, because both go by the entry they replace. -/
theorem replay?_record {K : Keyspace} {w : Write} (hw : K.Accepts w) (hfit : w.record.Fits) :
    K.replay? w.record = some (K.apply w) := by
  obtain ⟨-, hkey, hrev⟩ := Write.record_spec hfit
  cases w with
  | put key value lease rev prev =>
      obtain rfl : aliveIn K.keys key = prev := hw
      obtain ⟨-, -, -, hdec⟩ := KvWalRecord.Fits.new_spec hfit
      have hdecode : decodeKeyValue (putRecord key value lease rev (aliveIn K.keys key)).kvBytes
          = some _ := hdec
      simp only [Write.record, Write.rev] at hrev ⊢
      rw [replay?, deleted_putRecord, if_neg (by simp), hdecode]
      simp only [hrev, putEntry_some, apply]
  | delete key rev prev =>
      obtain ⟨halive, hpatch⟩ := hw
      obtain ⟨blob, hblob⟩ := Option.isSome_iff_exists.mp hpatch
      simp only [Write.record, Write.key, Write.rev] at hkey hrev ⊢
      rw [replay?, deleted_deleteRecord, if_pos rfl, hkey, hrev, Option.getD_some, halive]
      simp only [hblob, Option.map_some]

/-- **Replaying the records of a run repeats the run.** By induction on the run. -/
theorem Run.replay {K K' : Keyspace} {ws : List Write} (h : Run K ws K')
    (hfit : ∀ w ∈ ws, w.record.Fits) : K.replayAll? (ws.map Write.record) = some K' := by
  induction h with
  | nil => rfl
  | @cons K K' w ws hw _ ih =>
      rw [List.map_cons, replayAll?_cons, replay?_record hw (hfit w (by simp))]
      exact ih fun v hv => hfit v (by simp [hv])

end Keyspace

end Rudurru
