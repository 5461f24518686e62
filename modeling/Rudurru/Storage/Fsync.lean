import Rudurru.Lib.Trace
import Rudurru.Reference

/-!
# Rudurru.Storage.Fsync

The `dirty` flag (`src/storage/background.rs`, and the file handle of `src/storage/wal.rs`).

Appends write under the lock of the file and leave the flag for a background task, which takes the
flag back before it syncs the file. Every thread moves one step at a time, in any order:
appenders, the fsync task, callers of `WalFile::sync_all`, and the end of `compact_wal`, which
replaces the file by one that is synced.

The flag forgets nothing while the task's syncs succeed (`dirty_remembers`); a sync that fails is
logged and not tried again.

Memory is not modelled as shared; what is interleaved are the steps of the threads between which the
scheduler may switch, with the lock as part of the state. `Sound` says who may hold the lock, and
where a byte that is not synced is remembered: by the flag, by the task that has taken the flag and
not yet synced, or by the appender that has written and not yet set it. Each step moves the duty
from one place to the next or discharges it by a sync.
-/

namespace Rudurru

/-! ### Threads

Each thread is where it is in its code, down to the point between two calls that others can see:
taking the lock, a write, setting or taking the flag, a sync, letting go of the lock.
-/

/-- A thread in `append_kv` or `append_kv_batch`. -/
inductive Appender
  | idle
  /-- Before `file.lock()`. -/
  | waiting (recs : List KvWalRecord)
  /-- With the lock, before the first write. -/
  | locked (recs : List KvWalRecord)
  /-- With the lock, after a write; the records are those still to come. -/
  | written (recs : List KvWalRecord)
  /-- After `dirty.store(true)`, still with the lock. -/
  | marked

/-- The task of `start_fsync_task`. -/
inductive FsyncTask
  | sleeping
  /-- `dirty.swap(false)` has returned true. -/
  | swapped
  | locked
  /-- After `sync_all`, whatever it returned. -/
  | done
  deriving DecidableEq

/-- A caller of `WalFile::sync_all`. -/
inductive Syncer
  | idle
  | locked
  /-- After a `sync_all` that succeeded. -/
  | synced
  deriving DecidableEq

/-- Who can hold the lock of the file. -/
inductive Holder
  | appender (i : Nat)
  | task
  | syncer
  deriving DecidableEq

namespace Appender

/-- Does the thread hold the lock? -/
def holds : Appender → Bool
  | .idle | .waiting _ => false
  | .locked _ | .written _ | .marked => true

/-- Does it hold the lock with nothing written? -/
def isLocked : Appender → Bool
  | .locked _ => true
  | _ => false

end Appender

def FsyncTask.holds : FsyncTask → Bool
  | .sleeping | .swapped => false
  | .locked | .done => true

def Syncer.holds : Syncer → Bool
  | .idle => false
  | .locked | .synced => true

/-! ### Steps -/

/-- The file, the flag and the threads. -/
structure WalSync where
  contents : Bytes
  /-- History variable: how much of the file a successful sync has covered. -/
  synced : Nat
  dirty : Bool
  lock : Option Holder
  appenders : Nat → Appender
  task : FsyncTask
  syncer : Syncer
  /-- `compact_wal` has swapped the file and not yet set the flag. -/
  swapping : Bool

inductive SyncEvent
  /-- Thread `i` enters `append_kv_batch`, or `append_kv` with one record. -/
  | append (i : Nat) (recs : List KvWalRecord)
  | lock (i : Nat)
  | write (i : Nat)
  /-- `write_all` fails after `n` bytes; the error drops the guard. -/
  | writeFails (i n : Nat)
  | mark (i : Nat)
  | unlock (i : Nat)
  | taskSwap
  | taskLock
  | taskSync (ok : Bool)
  | taskUnlock
  | syncLock
  | syncAll (ok : Bool)
  | syncClear
  /-- `compact_wal` replaces the file by a synced one with these contents. -/
  | swapFile (contents : Bytes)
  | swapMark

namespace WalSync

/-- The file as a process finds it, with no thread under way. -/
def start (contents : Bytes) : WalSync :=
  { contents, synced := contents.length, dirty := false, lock := none, appenders := fun _ => .idle,
    task := .sleeping, syncer := .idle, swapping := false }

/-- Move a thread. -/
def setAppender (s : WalSync) (i : Nat) (a : Appender) : WalSync :=
  { s with appenders := Function.update s.appenders i a }

/-- `None` stands for a thread that is not at this point, or that waits for the lock. -/
def step (s : WalSync) : SyncEvent → Option WalSync
  | .append i recs =>
      match s.appenders i with
      | .idle => some (s.setAppender i (.waiting recs))
      | _ => none
  | .lock i =>
      match s.appenders i, s.lock with
      | .waiting recs, none =>
          some { s.setAppender i (.locked recs) with lock := some (.appender i) }
      | _, _ => none
  | .write i =>
      match s.appenders i with
      | .locked (rec :: recs) | .written (rec :: recs) =>
          some { s.setAppender i (.written recs) with contents := s.contents ++ rec.serialize }
      | _ => none
  | .writeFails i n =>
      match s.appenders i with
      | .locked (rec :: _) | .written (rec :: _) =>
          some { s.setAppender i .idle with
            contents := s.contents ++ rec.serialize.take n, lock := none }
      | _ => none
  | .mark i =>
      match s.appenders i with
      | .locked [] | .written [] => some { s.setAppender i .marked with dirty := true }
      | _ => none
  | .unlock i =>
      match s.appenders i with
      | .marked => some { s.setAppender i .idle with lock := none }
      | _ => none
  | .taskSwap =>
      if s.task = .sleeping then
        some (if s.dirty then { s with dirty := false, task := .swapped } else s)
      else none
  | .taskLock =>
      if s.task = .swapped ∧ s.lock = none then
        some { s with task := .locked, lock := some .task }
      else none
  | .taskSync ok =>
      -- an error is logged
      if s.task = .locked then
        some { s with task := .done, synced := if ok then s.contents.length else s.synced }
      else none
  | .taskUnlock =>
      if s.task = .done then some { s with task := .sleeping, lock := none } else none
  | .syncLock =>
      if s.syncer = .idle ∧ s.lock = none then
        some { s with syncer := .locked, lock := some .syncer }
      else none
  | .syncAll ok =>
      if s.syncer = .locked then
        some (if ok then { s with syncer := .synced, synced := s.contents.length }
          else { s with syncer := .idle, lock := none })
      else none
  | .syncClear =>
      if s.syncer = .synced then some { s with syncer := .idle, dirty := false, lock := none }
      else none
  | .swapFile contents =>
      if s.lock = none ∧ s.swapping = false then
        some { s with contents, synced := contents.length, swapping := true }
      else none
  | .swapMark => if s.swapping then some { s with dirty := true, swapping := false } else none

def run (s : WalSync) (evs : List SyncEvent) : Option WalSync := Trace.run step s evs

/-! ### An append that nothing interrupts -/

theorem writeAll_of_no_faults {w : WalFile} (h : w.faults = []) (data : Bytes) :
    w.writeAll data = (true, { w with contents := w.contents ++ data }) := by
  unfold WalFile.writeAll
  split <;> simp_all

/-- The writes of a thread that holds the lock. -/
theorem run_writes (recs : List KvWalRecord) {s : WalSync} {i : Nat} {w : WalFile}
    (hi : s.appenders i = .written recs) (hw : w.faults = [])
    (hcontents : w.contents = s.contents) :
    ∃ w', w.writeBatch recs = (true, w') ∧
      run s (List.replicate recs.length (.write i))
        = some { s.setAppender i (.written []) with contents := w'.contents } := by
  induction recs generalizing s w with
  | nil =>
      refine ⟨w, rfl, ?_⟩
      have hsame : Function.update s.appenders i (.written []) = s.appenders :=
        Function.update_eq_self_iff.mpr hi.symm
      simp only [List.length_nil, List.replicate_zero, run, Trace.run_nil, setAppender, hsame,
        hcontents]
  | cons rec recs ih =>
      have hwrite : s.step (.write i) = some { s.setAppender i (.written recs) with
          contents := s.contents ++ rec.serialize } := by
        simp only [step, hi]
      obtain ⟨w', hbatch, hrest⟩ := ih
        (s := { s.setAppender i (.written recs) with contents := s.contents ++ rec.serialize })
        (w := { w with contents := w.contents ++ rec.serialize, log := w.log ++ [rec] })
        (Function.update_self _ _ _) hw (by rw [hcontents])
      refine ⟨w', ?_, ?_⟩
      · rw [WalFile.writeBatch, writeAll_of_no_faults hw]
        exact hbatch
      · rw [List.length_cons, List.replicate_succ, run, Trace.run_cons, hwrite, Option.bind_some]
        refine hrest.trans ?_
        simp only [setAppender, Function.update_idem]

/-- **The steps of an append, in one go, are `append_kv_batch`.** -/
theorem run_append {s : WalSync} {i : Nat} (hi : s.appenders i = .idle) (hfree : s.lock = none)
    {w : WalFile} (hw : w.faults = []) (hcontents : w.contents = s.contents) (rec : KvWalRecord)
    (recs : List KvWalRecord) :
    ∃ w', w.appendKvBatch (rec :: recs) = (true, w') ∧
      run s ([.append i (rec :: recs), .lock i, .write i]
        ++ (List.replicate recs.length (.write i) ++ [.mark i, .unlock i]))
        = some { s with contents := w'.contents, dirty := w'.dirty } := by
  have hfirst : run s [.append i (rec :: recs), .lock i, .write i]
      = some { s.setAppender i (.written recs) with
          contents := s.contents ++ rec.serialize, lock := some (.appender i) } := by
    simp [run, step, hi, hfree, setAppender]
  obtain ⟨w', hbatch, hwrites⟩ := run_writes recs
    (s := { s.setAppender i (.written recs) with
      contents := s.contents ++ rec.serialize, lock := some (.appender i) })
    (w := { w with contents := w.contents ++ rec.serialize, log := w.log ++ [rec] })
    (Function.update_self _ _ _) hw (by rw [hcontents])
  refine ⟨{ w' with dirty := true }, ?_, ?_⟩
  · rw [WalFile.appendKvBatch, WalFile.writeBatch, writeAll_of_no_faults hw]
    dsimp only
    rw [hbatch]
  · have hidle : Function.update s.appenders i .idle = s.appenders :=
      Function.update_eq_self_iff.mpr hi.symm
    rw [run, Trace.run_append, ← run, hfirst, Option.bind_some, Trace.run_append, ← run, hwrites,
      Option.bind_some]
    simp [step, setAppender, hidle, hfree]

/-! ### What the flag remembers

`synced` is how much of the file the last successful sync has reached. As long as the file is longer
than that, somebody remembers it.
-/

/-- Bytes that no sync has covered are remembered: by the flag, by an appender that has still to set
it, or by the task that has taken it and not yet synced. -/
def Remembered (s : WalSync) : Prop :=
  s.synced < s.contents.length →
    s.dirty = true ∨ (∃ i recs, s.appenders i = .written recs) ∨ s.task = .swapped ∨
      s.task = .locked

/-- A sync of the task fails only over synced bytes, or when an append has set the flag again; and a
write fails only before its append has put any bytes into the file, or under the flag. -/
def StepDurable (s : WalSync) : SyncEvent → Prop
  | .taskSync false => s.dirty = true ∨ s.synced = s.contents.length
  | .writeFails i n => s.dirty = true ∨ n = 0 ∧ (s.appenders i).isLocked = true
  | _ => True

instance (s : WalSync) (ev : SyncEvent) : Decidable (s.StepDurable ev) := by
  unfold StepDurable
  split <;> infer_instance

/-- The lock is held by one thread, in the part of its code where it holds it. The task syncs under
the lock, so what it has synced is all that was written; `Remembered` is what is to be shown. -/
structure Sound (s : WalSync) : Prop where
  appender : ∀ i, (s.appenders i).holds = true → s.lock = some (.appender i)
  task : s.task.holds = true → s.lock = some .task
  syncer : s.syncer.holds = true → s.lock = some .syncer
  cleared : s.syncer = .synced → s.synced = s.contents.length
  remembered : s.Remembered

theorem sound_start (contents : Bytes) : Sound (start contents) where
  appender := by simp [start, Appender.holds]
  task := by simp [start, FsyncTask.holds]
  syncer := by simp [start, Syncer.holds]
  cleared := by simp [start]
  remembered := fun h => absurd h (Nat.lt_irrefl _)

section

variable {s : WalSync} {i : Nat} {a : Appender}

/-- After a thread has moved, the others hold the lock as before. -/
theorem Sound.setAppender (h : Sound s) {lock : Option Holder}
    (ha : a.holds = true → lock = some (.appender i))
    (hothers : ∀ j, j ≠ i → s.lock = some (.appender j) → lock = some (.appender j)) (j : Nat)
    (hj : (Function.update s.appenders i a j).holds = true) : lock = some (.appender j) := by
  by_cases hji : j = i
  · subst hji
    rw [Function.update_self] at hj
    exact ha hj
  · rw [Function.update_of_ne hji] at hj
    exact hothers j hji (h.appender j hj)

theorem lock_ne_of_free (h : s.lock = none) (holder : Holder) : s.lock ≠ some holder := by
  rw [h]
  intro heq
  cases heq

theorem lock_ne {holder holder' : Holder} (h : s.lock = some holder) (hne : holder' ≠ holder) :
    s.lock ≠ some holder' := by
  rw [h]
  exact fun heq => hne (Option.some.inj heq).symm

/-- A thread that holds the lock is the only one. -/
theorem Sound.alone (h : Sound s) (hi : s.lock = some (.appender i)) :
    s.task.holds = false ∧ s.syncer.holds = false ∧
      ∀ j, j ≠ i → (s.appenders j).holds = false := by
  refine ⟨?_, ?_, ?_⟩
  · exact Bool.eq_false_iff.mpr fun hholds => lock_ne hi (by simp) (h.task hholds)
  · exact Bool.eq_false_iff.mpr fun hholds => lock_ne hi (by simp) (h.syncer hholds)
  · intro j hj
    exact Bool.eq_false_iff.mpr fun hholds => lock_ne hi (by simpa using hj) (h.appender j hholds)

/-- An unlocked file has no writer. -/
theorem Sound.no_writer (h : Sound s) (hlock : ∀ i, s.lock ≠ some (.appender i)) (i : Nat)
    (recs : List KvWalRecord) : s.appenders i ≠ .written recs := by
  intro hi
  exact hlock i (h.appender i (by rw [hi]; rfl))

/-- A thread with the lock changes the file or the flag. -/
theorem Sound.hold (h : Sound s) (hi : (s.appenders i).holds = true) {contents : Bytes}
    {dirty : Bool}
    (hrem : ({ s.setAppender i a with contents, dirty } : WalSync).Remembered) :
    Sound { s.setAppender i a with contents, dirty } := by
  have hlock := h.appender i hi
  obtain ⟨-, hsyncer, -⟩ := h.alone hlock
  refine ⟨h.setAppender (fun _ => hlock) (fun _ _ hj => hj), h.task, h.syncer, ?_, hrem⟩
  intro hsynced
  rw [show s.syncer = .synced from hsynced] at hsyncer
  cases hsyncer

/-- A thread drops the lock. -/
theorem Sound.release (h : Sound s) (hi : (s.appenders i).holds = true) (ha : a.holds = false)
    {contents : Bytes}
    (hrem : ({ s.setAppender i a with contents, lock := none } : WalSync).Remembered) :
    Sound { s.setAppender i a with contents, lock := none } := by
  have hlock := h.appender i hi
  obtain ⟨htask, hsyncer, -⟩ := h.alone hlock
  refine ⟨h.setAppender ?_ ?_, ?_, ?_, ?_, hrem⟩
  · intro hholds
    rw [ha] at hholds
    cases hholds
  · intro j hj hlock'
    rw [hlock] at hlock'
    cases hlock'
    exact absurd rfl hj
  · intro hholds
    rw [show s.task.holds = true from hholds] at htask
    cases htask
  · intro hholds
    rw [show s.syncer.holds = true from hholds] at hsyncer
    cases hsyncer
  · intro hsynced
    rw [show s.syncer = .synced from hsynced] at hsyncer
    cases hsyncer

/-- What remembers the bytes when no thread is writing. -/
theorem Sound.kept (h : Sound s) (hi : (s.appenders i).holds = true)
    (hwriting : ∀ recs, s.appenders i ≠ .written recs) (hlt : s.synced < s.contents.length) :
    s.dirty = true ∨ s.task = .swapped ∨ s.task = .locked := by
  obtain ⟨-, -, hothers⟩ := h.alone (h.appender i hi)
  rcases h.remembered hlt with hdirty | ⟨j, recs, hj⟩ | htask
  · exact .inl hdirty
  · by_cases hji : j = i
    · subst hji
      exact absurd hj (hwriting recs)
    · have hholds := hothers j hji
      rw [hj] at hholds
      cases hholds
  · exact .inr htask

theorem Sound.step_append {recs : List KvWalRecord} {s' : WalSync} (h : Sound s)
    (hstep : s.step (.append i recs) = some s') : Sound s' := by
  simp only [step] at hstep
  split at hstep
  · next hidle =>
      cases hstep
      refine ⟨h.setAppender (fun hholds => (by cases hholds)) (fun _ _ hj => hj), h.task, h.syncer,
        h.cleared, ?_⟩
      intro hlt
      rcases h.remembered hlt with hdirty | ⟨j, rest, hj⟩ | htask
      · exact .inl hdirty
      · refine .inr (.inl ⟨j, rest, ?_⟩)
        have hji : j ≠ i := by
          intro hji
          rw [hji, hidle] at hj
          cases hj
        rw [← hj]
        exact Function.update_of_ne hji _ _
      · exact .inr (.inr htask)
  · cases hstep

theorem Sound.step_lock {s' : WalSync} (h : Sound s) (hstep : s.step (.lock i) = some s') :
    Sound s' := by
  simp only [step] at hstep
  split at hstep
  · next recs hwaiting hfree =>
      cases hstep
      have hnone := lock_ne_of_free hfree
      refine ⟨h.setAppender (fun _ => rfl) (fun j _ hj => absurd hj (hnone _)),
        fun hholds => absurd (h.task hholds) (hnone _),
        fun hholds => absurd (h.syncer hholds) (hnone _), h.cleared, ?_⟩
      intro hlt
      rcases h.remembered hlt with hdirty | ⟨j, rest, hj⟩ | htask
      · exact .inl hdirty
      · exact absurd hj (h.no_writer (fun i => hnone _) j rest)
      · exact .inr (.inr htask)
  · cases hstep

theorem Sound.step_write {s' : WalSync} (h : Sound s) (hstep : s.step (.write i) = some s') :
    Sound s' := by
  have hwrite : ∀ (rec : KvWalRecord) recs, (s.appenders i).holds = true →
      Sound { s.setAppender i (.written recs) with contents := s.contents ++ rec.serialize } := by
    intro rec recs hi
    refine h.hold hi (fun _ => .inr (.inl ⟨i, recs, ?_⟩))
    exact Function.update_self _ _ _
  simp only [step] at hstep
  split at hstep
  · next rec recs hi =>
      cases hstep
      exact hwrite rec recs (by rw [hi]; rfl)
  · next rec recs hi =>
      cases hstep
      exact hwrite rec recs (by rw [hi]; rfl)
  · cases hstep

theorem Sound.step_mark {s' : WalSync} (h : Sound s) (hstep : s.step (.mark i) = some s') :
    Sound s' := by
  simp only [step] at hstep
  split at hstep
  · next hi =>
      cases hstep
      exact h.hold (by rw [hi]; rfl) (fun _ => .inl rfl)
  · next hi =>
      cases hstep
      exact h.hold (by rw [hi]; rfl) (fun _ => .inl rfl)
  · cases hstep

theorem Sound.step_writeFails {n : Nat} {s' : WalSync} (h : Sound s)
    (hok : s.StepDurable (.writeFails i n)) (hstep : s.step (.writeFails i n) = some s') :
    Sound s' := by
  have hfail : ∀ rec : KvWalRecord, (s.appenders i).holds = true →
      Sound { s.setAppender i .idle with
        contents := s.contents ++ rec.serialize.take n, lock := none } := by
    intro rec hi
    refine h.release hi rfl ?_
    rcases hok with hdirty | ⟨rfl, hlocked⟩
    · exact fun _ => .inl hdirty
    · intro hlt
      rw [List.take_zero, List.append_nil] at hlt
      have hkept := h.kept hi (fun recs hi' => by rw [hi'] at hlocked; cases hlocked) hlt
      exact hkept.imp_right .inr
  simp only [step] at hstep
  split at hstep
  · next rec recs hi =>
      cases hstep
      exact hfail rec (by rw [hi]; rfl)
  · next rec recs hi =>
      cases hstep
      exact hfail rec (by rw [hi]; rfl)
  · cases hstep

theorem Sound.step_unlock {s' : WalSync} (h : Sound s) (hstep : s.step (.unlock i) = some s') :
    Sound s' := by
  simp only [step] at hstep
  split at hstep
  · next hi =>
      cases hstep
      refine h.release (by rw [hi]; rfl) rfl ?_
      intro hlt
      have hkept := h.kept (by rw [hi]; rfl) (fun recs hi' => by rw [hi] at hi'; cases hi') hlt
      exact hkept.imp_right .inr
  · cases hstep

/-! ### The other threads -/

/-- A holder that is no appender leaves the bytes to the flag and the task. -/
theorem Sound.kept_of_lock (h : Sound s) (hlock : ∀ i, s.lock ≠ some (.appender i))
    (hlt : s.synced < s.contents.length) :
    s.dirty = true ∨ s.task = .swapped ∨ s.task = .locked := by
  rcases h.remembered hlt with hdirty | ⟨j, recs, hj⟩ | htask
  · exact .inl hdirty
  · exact absurd hj (h.no_writer hlock j recs)
  · exact .inr htask

theorem Sound.step_task {ev : SyncEvent} {s' : WalSync} (h : Sound s) (hok : s.StepDurable ev)
    (hev : ev = .taskSwap ∨ ev = .taskLock ∨ (∃ ok, ev = .taskSync ok) ∨ ev = .taskUnlock)
    (hstep : s.step ev = some s') : Sound s' := by
  rcases hev with rfl | rfl | ⟨ok, rfl⟩ | rfl
  all_goals
    simp only [step] at hstep
    split at hstep
    case isFalse => cases hstep
  · next hsleeping =>
      cases hstep
      split
      · -- the flag is taken down, and the task is now the one that owes the sync
        exact ⟨h.appender, fun hholds => (by cases hholds), h.syncer, h.cleared,
          fun _ => .inr (.inr (.inl rfl))⟩
      · exact h
  · next hready =>
      cases hstep
      have hnone := lock_ne_of_free hready.2
      exact ⟨fun j hj => absurd (h.appender j hj) (hnone _), fun _ => rfl,
        fun hholds => absurd (h.syncer hholds) (hnone _), h.cleared,
        fun _ => .inr (.inr (.inr rfl))⟩
  · next hlocked =>
      cases hstep
      have hlock := h.task (by rw [hlocked]; rfl)
      have hsyncer : s.syncer ≠ .synced := fun hsynced =>
        lock_ne hlock (by simp) (h.syncer (by rw [hsynced]; rfl))
      refine ⟨h.appender, fun _ => hlock, h.syncer, fun hsynced => absurd hsynced hsyncer, ?_⟩
      intro hlt
      cases ok with
      -- a sync reaches all that is appended: the lock keeps the appenders out
      | true => exact absurd hlt (Nat.lt_irrefl _)
      | false =>
          rcases hok with hdirty | hsynced
          · exact .inl hdirty
          · exact absurd hsynced (Nat.ne_of_lt hlt)
  · next hdone =>
      cases hstep
      have hlock := h.task (by rw [hdone]; rfl)
      refine ⟨fun j hj => absurd (h.appender j hj) (lock_ne hlock (by simp)),
        fun hholds => (by cases hholds),
        fun hholds => absurd (h.syncer hholds) (lock_ne hlock (by simp)), h.cleared, ?_⟩
      intro hlt
      rcases h.kept_of_lock (fun i => lock_ne hlock (by simp)) hlt with hdirty | htask | htask
      · exact .inl hdirty
      · rw [hdone] at htask
        cases htask
      · rw [hdone] at htask
        cases htask

theorem Sound.step_syncer {ev : SyncEvent} {s' : WalSync} (h : Sound s)
    (hev : ev = .syncLock ∨ (∃ ok, ev = .syncAll ok) ∨ ev = .syncClear)
    (hstep : s.step ev = some s') : Sound s' := by
  rcases hev with rfl | ⟨ok, rfl⟩ | rfl
  all_goals
    simp only [step] at hstep
    split at hstep
    case isFalse => cases hstep
  · next hready =>
      cases hstep
      have hnone := lock_ne_of_free hready.2
      refine ⟨fun j hj => absurd (h.appender j hj) (hnone _),
        fun hholds => absurd (h.task hholds) (hnone _), fun _ => rfl,
        fun hsynced => (by cases hsynced), h.remembered⟩
  · next hlocked =>
      cases hstep
      have hlock := h.syncer (by rw [hlocked]; rfl)
      cases ok with
      | true =>
          exact ⟨h.appender, h.task, fun _ => hlock, fun _ => rfl,
            fun hlt => absurd hlt (Nat.lt_irrefl _)⟩
      | false =>
          exact ⟨fun j hj => absurd (h.appender j hj) (lock_ne hlock (by simp)),
            fun hholds => absurd (h.task hholds) (lock_ne hlock (by simp)),
            fun hholds => (by cases hholds), fun hsynced => (by cases hsynced), h.remembered⟩
  · next hsynced =>
      cases hstep
      have hlock := h.syncer (by rw [hsynced]; rfl)
      exact ⟨fun j hj => absurd (h.appender j hj) (lock_ne hlock (by simp)),
        fun hholds => absurd (h.task hholds) (lock_ne hlock (by simp)),
        fun hholds => (by cases hholds), fun hsynced => (by cases hsynced),
        fun hlt => absurd (h.cleared hsynced) (Nat.ne_of_lt hlt)⟩

theorem Sound.step_swap {ev : SyncEvent} {s' : WalSync} (h : Sound s)
    (hev : (∃ contents, ev = .swapFile contents) ∨ ev = .swapMark)
    (hstep : s.step ev = some s') : Sound s' := by
  rcases hev with ⟨contents, rfl⟩ | rfl
  all_goals
    simp only [step] at hstep
    split at hstep
    case isFalse => cases hstep
  · cases hstep
    exact ⟨h.appender, h.task, h.syncer, fun _ => rfl, fun hlt => absurd hlt (Nat.lt_irrefl _)⟩
  · cases hstep
    exact ⟨h.appender, h.task, h.syncer, h.cleared, fun _ => .inl rfl⟩

/-- **Every step keeps the bytes remembered.** The cases are the threads: an appender under the
lock, the task, a caller of `sync_all`, and the swap of the file. -/
theorem Sound.step {ev : SyncEvent} {s' : WalSync} (h : Sound s) (hok : s.StepDurable ev)
    (hstep : s.step ev = some s') : Sound s' := by
  cases ev with
  | append i recs => exact h.step_append hstep
  | lock i => exact h.step_lock hstep
  | write i => exact h.step_write hstep
  | writeFails i n => exact h.step_writeFails hok hstep
  | mark i => exact h.step_mark hstep
  | unlock i => exact h.step_unlock hstep
  | taskSwap => exact h.step_task hok (.inl rfl) hstep
  | taskLock => exact h.step_task hok (.inr (.inl rfl)) hstep
  | taskSync ok => exact h.step_task hok (.inr (.inr (.inl ⟨ok, rfl⟩))) hstep
  | taskUnlock => exact h.step_task hok (.inr (.inr (.inr rfl))) hstep
  | syncLock => exact h.step_syncer (.inl rfl) hstep
  | syncAll ok => exact h.step_syncer (.inr (.inl ⟨ok, rfl⟩)) hstep
  | syncClear => exact h.step_syncer (.inr (.inr rfl)) hstep
  | swapFile contents => exact h.step_swap (.inl ⟨contents, rfl⟩) hstep
  | swapMark => exact h.step_swap (.inr rfl) hstep

end

/-- **The flag forgets nothing**: in every interleaving in which no sync of the task fails over
bytes that only it remembers, and no write fails after its append has reached the file, bytes that
no successful sync has covered are remembered. -/
theorem dirty_remembers {contents : Bytes} {evs : List SyncEvent} {s : WalSync}
    (hrun : run (start contents) evs = some s)
    (hok : Trace.Along step StepDurable (start contents) evs) : s.Remembered := by
  have hstep : ∀ s ev s', Sound s → s.StepDurable ev → step s ev = some s' → Sound s' :=
    fun s ev s' hs hP => hs.step hP
  exact (Trace.invariant hstep (sound_start contents) hok hrun).remembered

/-- A record to append. -/
def sampleRecord : KvWalRecord := .new IS_CREATE [1] [] 1 1 1 0

/-- Between the swap and the sync of the task another append sets the flag, so that the sync may
fail. -/
theorem dirty_remembers_failed_sync :
    ∃ s, run (start []) [.append 0 [sampleRecord], .lock 0, .write 0, .mark 0, .unlock 0, .taskSwap,
        .append 1 [sampleRecord, sampleRecord], .lock 1, .write 1, .write 1, .mark 1, .unlock 1,
        .taskLock, .taskSync false] = some s ∧
      s.synced < s.contents.length ∧ s.Remembered := by
  have hrun : (run (start []) [.append 0 [sampleRecord], .lock 0, .write 0, .mark 0, .unlock 0,
      .taskSwap, .append 1 [sampleRecord, sampleRecord], .lock 1, .write 1, .write 1, .mark 1,
      .unlock 1, .taskLock, .taskSync false]).any (fun s =>
        decide (s.synced < s.contents.length)) = true := by
    decide +kernel
  obtain ⟨s, hs, hlt⟩ := (Option.any_eq_true _ _).mp hrun
  exact ⟨s, hs, of_decide_eq_true hlt, dirty_remembers hs (by decide +kernel)⟩

/-- A sync that fails is forgotten: the task has cleared the flag, and nothing sets it again. -/
theorem failed_sync_forgets :
    ∃ s, run (start []) [.append 0 [sampleRecord], .lock 0, .write 0, .mark 0, .unlock 0, .taskSwap,
        .taskLock, .taskSync false, .taskUnlock] = some s ∧ ¬ s.Remembered := by
  refine ⟨_, rfl, ?_⟩
  intro h
  rcases h (by decide +kernel) with hdirty | ⟨i, recs, hi⟩ | htask | htask
  · cases hdirty
  · by_cases hzero : i = 0
    · subst hzero
      cases hi
    · simp [setAppender, start] at hi
  · cases htask
  · cases htask

end WalSync

end Rudurru
