import Rudurru.KeysOnly
import Rudurru.LeaseIds
import Rudurru.Leases
import Rudurru.Lib.Alarm
import Rudurru.Txn.Ready

/-!
# Rudurru.Expiry

The expiry task (`start_expiry_task` in `src/storage/background.rs`) beside the other events of the
server. It sleeps until the earliest expiry of a lease; a grant, a keep-alive and a revocation
notify it. When it is up, it takes the lock and removes the leases that are due, with their keys.

However requests, compactions and restarts fall between its steps, the task does not sleep through
an expiry: once a lease is due, it takes the task four steps of its own to remove it
(`due_leases_removed`), but for the time that passes between its look at the clock and its sleep.
A lease that nobody revokes is there until it is due (`lease_kept_until_due`).

The task itself is `Lib.Alarm`, with the expiries as its deadlines. What is to be shown here is that
the server keeps the alarm armed: an expiry that a request brings forward comes with a notification
(`armed_of_leaseMoves`), and time only makes deadlines more pressing. A round of the task is then a
sequence of expiries as the clients could have asked for them (`run_removals`), so whatever holds in
every run of requests holds along the rounds as well.

The other direction is about one lease. `LeaseMoves` lists what a request can do to the leases, and
none of it takes a lease away before its time, unless it revokes it (`LeaseMoves.kept`).
-/

namespace Rudurru

open Std (ExtTreeMap)
open Prog (exec)
open Alarm (Sleeper Move)

section

variable [Crates]

/-! ### The task -/

/-- When the leases expire. -/
def StoreState.deadlines (s : StoreState) : List Nat := s.leases.toList.map (·.2.expiresAt)

/-- The leases that are due. -/
def StoreState.expired (s : StoreState) (now : Nat) : List Int64 :=
  (s.leases.toList.filter (·.2.expiresAt ≤ now)).map (·.1)

/-- One round of the loop that removes them; a failed deletion is logged and dropped. -/
def removeLease (id : Int64) : StoreM Unit := do
  modify fun s => { s with leases := s.leases.erase id }
  tryCatch (deleteKeysForLease id) fun
    | .status _ _ => pure ()
    | .panic m => throw (.panic m)

/-- The loop. -/
def removeLeases (ids : List Int64) : StoreM Unit := ids.forM removeLease

/-- A server with its clock, in nanoseconds, its expiry task, and the permit of `expiry_notify`. -/
structure Expiry where
  sys : System
  now : Nat
  task : Sleeper
  permit : Bool

/-- What can happen next. -/
inductive ExpiryEvent
  | pass (ns : Nat)
  /-- Anything else that the server does. -/
  | server (ev : Event)
  /-- The task goes on in front of its lock. -/
  | task (m : Move)
  /-- It takes the lock. -/
  | expire

omit [Crates] in
/-- A request that reads the clock reads this one; leases expire in the task. -/
def Event.timely (now : Nat) : Event → Bool
  | .request (.leaseGrant t _ _) | .request (.leaseKeepAlive t _) | .restart t => t = now
  | .request (.leaseExpire _ _) => false
  | _ => true

omit [Crates] in
/-- Does the request call `notify_one`? -/
def Request.notifies (s : StoreState) : Request → Bool
  | .leaseGrant _ id ttl => (checkLeaseTtl ttl).toOption.isSome &&
      !s.leases.contains (if id ≠ 0 then id else s.nextLeaseId)
  | .leaseRevoke id | .leaseKeepAlive _ id => s.leases.contains id
  | _ => false

@[inherit_doc Request.notifies]
def Event.notifies (s : StoreState) : Event → Bool
  | .request q => q.notifies s
  | _ => false

namespace Expiry

/-- A server that has just started. -/
def start (sys : System) (now : Nat) : Expiry := { sys, now, task := .looking, permit := false }

/-- The next state; `none` when the event cannot happen or ends the process. -/
def step (x : Expiry) : ExpiryEvent → Option Expiry
  | .pass ns => some { x with now := x.now + ns }
  | .server ev =>
      if ev.timely x.now then
        (x.sys.step ev).map fun sys =>
          if ev.isRestart then start sys x.now
          else { x with sys, permit := x.permit || ev.notifies x.sys.store }
      else none
  | .task m =>
      (x.task.step x.sys.store.deadlines x.now x.permit m).map fun r =>
        { x with task := r.1, permit := r.2 }
  | .expire =>
      if x.task = .awake then
        if x.sys.store.expired x.now = [] then some { x with task := .looking }
        else
          match exec (removeLeases (x.sys.store.expired x.now)) x.sys.store with
          | (.ok _, store) =>
              some { x with sys := { x.sys with store }, task := .looking, permit := true }
          | (.error _, _) => none
      else none

/-- The state after a sequence of events. -/
def run (x : Expiry) (evs : List ExpiryEvent) : Option Expiry := Trace.run step x evs

end Expiry

/-! ### Leases

What a request can do to the leases, as a relation with a case for each kind. Everything about the
task is shown from it, and not from the code of the requests.
-/

omit [Crates] in
theorem mem_deadlines {s : StoreState} {d : Nat} :
    d ∈ s.deadlines ↔ ∃ (id : Int64) (ls : LeaseState), s.leases[id]? = some ls ∧
      ls.expiresAt = d := by
  rw [StoreState.deadlines, List.mem_map]
  constructor
  · rintro ⟨⟨id, ls⟩, hmem, rfl⟩
    exact ⟨id, ls, ExtTreeMap.mem_toList_iff_getElem?_eq_some.mp hmem, rfl⟩
  · rintro ⟨id, ls, hls, rfl⟩
    exact ⟨(id, ls), ExtTreeMap.mem_toList_iff_getElem?_eq_some.mpr hls, rfl⟩

omit [Crates] in
theorem mem_expired {s : StoreState} {now : Nat} {id : Int64} :
    id ∈ s.expired now ↔ ∃ ls, s.leases[id]? = some ls ∧ ls.expiresAt ≤ now := by
  rw [StoreState.expired, List.mem_map]
  constructor
  · rintro ⟨⟨id, ls⟩, hmem, rfl⟩
    obtain ⟨hmem, hdue⟩ := List.mem_filter.mp hmem
    exact ⟨ls, ExtTreeMap.mem_toList_iff_getElem?_eq_some.mp hmem, of_decide_eq_true hdue⟩
  · rintro ⟨ls, hls, hdue⟩
    refine ⟨(id, ls), List.mem_filter.mpr ⟨?_, decide_eq_true hdue⟩, rfl⟩
    exact ExtTreeMap.mem_toList_iff_getElem?_eq_some.mpr hls

omit [Crates] in
theorem nodup_expired (s : StoreState) (now : Nat) : (s.expired now).Nodup := by
  have hkeys : (s.leases.toList.map (·.1)).Nodup := by
    rw [List.nodup_iff_pairwise_ne, List.pairwise_map]
    exact ExtTreeMap.distinct_keys_toList.imp fun h heq =>
      h (Std.LawfulEqCmp.compare_eq_iff_eq.mpr heq)
  exact hkeys.sublist (List.filter_sublist.map _)

/-- What a request can do to the leases. -/
inductive LeaseMoves (s : StoreState) : Request → StoreState → Prop
  | same {q : Request} {s' : StoreState} : s'.leases = s.leases → LeaseMoves s q s'
  | granted {now : Nat} {id ttl id' t : Int64} {s' : StoreState} : s.leases[id']? = none →
      checkLeaseTtl ttl = .ok t → Request.notifies s (.leaseGrant now id ttl) = true →
      s'.leases = s.leases.insert id' { id := id', ttl := t, expiresAt := expiryInstant now t } →
      LeaseMoves s (.leaseGrant now id ttl) s'
  | renewed {now : Nat} {id : Int64} {ls : LeaseState} {s' : StoreState} :
      s.leases[id]? = some ls →
      s'.leases = s.leases.insert id { ls with expiresAt := expiryInstant now ls.ttl } →
      LeaseMoves s (.leaseKeepAlive now id) s'
  | dropped {q : Request} {id : Int64} {s' : StoreState} : q.drops s = some id →
      s'.leases = s.leases.erase id → LeaseMoves s q s'

/-- Deleting the keys of a lease leaves the leases alone. -/
theorem deleteKeysForLease_leases (id : Int64) (s : StoreState) :
    (deleteKeysForLease id).Spec s fun _ s' => s'.leases = s.leases := by
  refine deleteKeysForLease_rule id (fun _ => rfl) ?_
  intro keys e _ _
  exact ((untouched_deleteBatch _ keys _ e).spec _).mono fun _ _ hs => hs.leases

omit [Crates] in
/-- A granted lease has an id that was not known. -/
theorem leaseGrant_leases (now : Nat) (id ttl : Int64) (s : StoreState) :
    (leaseGrant now id ttl).Spec s fun _ s' => LeaseMoves s (.leaseGrant now id ttl) s' := by
  have hgrant : ∀ (id' t : Int64) (s₁ : StoreState), s₁.leases = s.leases →
      checkLeaseTtl ttl = .ok t → id' = (if id ≠ 0 then id else s.nextLeaseId) →
        (grantLease now t id').Spec s₁ fun _ s' => LeaseMoves s (.leaseGrant now id ttl) s' := by
    intro id' t s₁ hleases ht hid
    unfold grantLease
    refine Prog.spec_get_bind ?_
    split
    · exact Prog.spec_throw_bind (LeaseMoves.same hleases)
    · next hnew =>
        rw [hleases] at hnew
        refine Prog.spec_modify_bind (Prog.spec_get_bind (Prog.spec_pure ?_))
        have hunknown : s.leases[id']? = none := by
          rw [ExtTreeMap.contains_eq_isSome_getElem?] at hnew
          exact Option.not_isSome_iff_eq_none.mp hnew
        refine .granted hunknown ht ?_ (by rw [hleases])
        rw [Request.notifies, ht, ← hid, Bool.eq_false_iff.mpr hnew]
        rfl
  refine leaseGrant_rule now id ttl (.same rfl) ?_ ?_
  · exact fun hid t ht => hgrant id t s rfl ht (if_pos hid).symm
  · exact fun hid t ht => hgrant _ t _ rfl ht (if_neg (not_not.mpr hid)).symm

/-- Transactions leave the leases alone. -/
theorem leases_invariant (s₀ : StoreState) :
    TxnInvariant (fun _ s => s.leases = s₀.leases) fun s => s.leases = s₀.leases :=
  .of_store (fun h => h)
    (fun p rev _ h => ((untouched_putAt p rev).spec _).mono fun _ _ hs => hs.leases.trans h)
    (fun d rev _ h => ((untouched_deleteRangeAt d rev).spec _).mono fun _ _ hs => hs.leases.trans h)

/-- **What a request does to the leases.** Transactions and everything else about keys are of the
kind that changes nothing. -/
theorem answer_leaseMoves {q : Request} {s s' : StoreState} (h : answer s q = some s') :
    LeaseMoves s q s' := by
  refine answer_spec (E := fun s' => LeaseMoves s q s') ?_ h
  cases q with
  | range req =>
      exact StoreM.spec_read_bind (fun _ _ => .same rfl) fun _ _ => Prog.spec_pure (.same rfl)
  | put req =>
      refine StoreM.spec_wrap (put_rule req (.same rfl) ?_)
      exact ((untouched_putAt req _).spec _).mono fun _ _ hs => .same hs.leases
  | deleteRange req =>
      refine StoreM.spec_wrap (deleteRange_rule req (.same rfl) ?_)
      exact ((untouched_deleteRangeAt req _).spec _).mono fun _ _ hs => .same hs.leases
  | txn req =>
      refine StoreM.spec_wrap (((leases_invariant s).txn_spec req rfl).mono ?_)
      exact fun _ _ h => .same h
  | compact revision =>
      exact StoreM.spec_wrap (compact_rule revision (fun _ => .same rfl) fun _ _ _ => .same rfl)
  | leaseGrant now id ttl => exact StoreM.spec_wrap (leaseGrant_leases now id ttl s)
  | leaseRevoke id =>
      refine StoreM.spec_wrap (leaseRevoke_rule id (fun _ => .same rfl) fun hid => ?_)
      exact (deleteKeysForLease_leases id _).mono fun _ _ h => .dropped (if_pos hid) h
  | leaseKeepAlive now id =>
      exact StoreM.spec_wrap (leaseKeepAlive_rule now id (.same rfl) fun ls hls => .renewed hls rfl)
  | leaseExpire now id =>
      refine StoreM.spec_wrap (leaseExpire_rule now id (fun _ => .same rfl) fun ls hls hdue => ?_)
      refine (deleteKeysForLease_leases id _).mono fun _ _ h => .dropped (if_pos ?_) h
      rw [hls]
      exact decide_eq_true hdue

/-- What the server does to the leases within one process. -/
theorem System.leases_of_step {sys sys' : System} {ev : Event} (hrestart : ev.isRestart = false)
    (hstep : sys.step ev = some sys') :
    sys'.store.leases = sys.store.leases ∨
      ∃ q, ev = .request q ∧ LeaseMoves sys.store q sys'.store := by
  cases ev with
  | request q =>
      obtain ⟨s', hq, rfl⟩ := Option.map_eq_some_iff.mp hstep
      exact .inr ⟨q, rfl, answer_leaseMoves hq⟩
  | watch batch =>
      cases hstep
      exact .inl (untouched_flushGlobalBatch sys.store batch).leases
  | cancelWatch watchId =>
      cases hstep
      exact .inl rfl
  | compactA | compactB | compactC =>
      simp only [System.step] at hstep
      split at hstep
      · cases hstep
        exact .inl rfl
      · cases hstep
  | compactFails =>
      cases hstep
      exact .inl rfl
  | restart now => cases hrestart

/-! ### The alarm

The task and the server meet in the set of deadlines. A new lease or a shorter one may bring the
next deadline forward, and then a notification comes along.
-/

/-- What can happen to the state of a process, the clock and the task. -/
inductive Expiry.Moves (x : Expiry) : ExpiryEvent → Expiry → Prop
  | pass {ns : Nat} : Moves x (.pass ns) { x with now := x.now + ns }
  | restart {sys : System} : x.sys.step (.restart x.now) = some sys →
      Moves x (.server (.restart x.now)) (.start sys x.now)
  | server {ev : Event} {sys : System} : ev.timely x.now = true → ev.isRestart = false →
      x.sys.step ev = some sys →
      Moves x (.server ev) { x with sys, permit := x.permit || ev.notifies x.sys.store }
  | task {m : Move} {task : Sleeper} {permit : Bool} :
      x.task.step x.sys.store.deadlines x.now x.permit m = some (task, permit) →
      Moves x (.task m) { x with task, permit }
  | idle : x.task = .awake → x.sys.store.expired x.now = [] →
      Moves x .expire { x with task := .looking }
  | remove {store : StoreState} : x.task = .awake →
      exec (removeLeases (x.sys.store.expired x.now)) x.sys.store = (.ok (), store) →
      Moves x .expire { x with sys := { x.sys with store }, task := .looking, permit := true }

theorem Expiry.moves_of_step {x x' : Expiry} {ev : ExpiryEvent} (hstep : x.step ev = some x') :
    x.Moves ev x' := by
  cases ev with
  | pass ns =>
      cases hstep
      exact .pass
  | server ev =>
      simp only [step] at hstep
      split at hstep
      · next htimely =>
          obtain ⟨sys, hsys, rfl⟩ := Option.map_eq_some_iff.mp hstep
          cases hrestart : ev.isRestart with
          | false => exact .server htimely hrestart hsys
          -- a restart reads the clock, so it is one of now
          | true =>
              cases ev with
              | restart t =>
                  obtain rfl : t = x.now := of_decide_eq_true htimely
                  exact .restart hsys
              | request | watch | cancelWatch | compactA | compactB | compactC | compactFails =>
                  cases hrestart
      · cases hstep
  | task m =>
      obtain ⟨⟨task, permit⟩, hmove, rfl⟩ := Option.map_eq_some_iff.mp hstep
      exact .task hmove
  | expire =>
      simp only [step] at hstep
      split at hstep
      · next hawake =>
          split at hstep
          · next hnone =>
              cases hstep
              exact .idle hawake hnone
          · split at hstep
            · next hremove =>
                cases hstep
                exact .remove hawake hremove
            · cases hstep
      · cases hstep

/-- The task will not sleep through the expiry of a lease. -/
def Expiry.Armed (x : Expiry) : Prop := x.task.Armed x.sys.store.deadlines x.now x.permit

omit [Crates] in
/-- A request that moves an expiry forward notifies the task. -/
theorem armed_of_leaseMoves {s s' : StoreState} {q : Request} (h : LeaseMoves s q s')
    {task : Sleeper} {now : Nat} {permit : Bool} (harmed : task.Armed s.deadlines now permit) :
    task.Armed s'.deadlines now (permit || q.notifies s) := by
  have hor : ∀ {deadlines}, task.Armed deadlines now permit →
      task.Armed deadlines now (permit || q.notifies s) := by
    intro deadlines h
    cases hq : q.notifies s with
    | false => rwa [Bool.or_false]
    | true => rw [Bool.or_true]; exact h.notify
  cases h with
  | same hleases =>
      rw [StoreState.deadlines, hleases]
      exact hor harmed
  | granted hnew httl hnotifies hleases =>
      rw [hnotifies, Bool.or_true]
      exact harmed.notify
  | @renewed t id ls s' hls hleases =>
      have hnotifies : Request.notifies s (.leaseKeepAlive t id) = true := by
        rw [Request.notifies, ExtTreeMap.contains_eq_isSome_getElem?, hls]
        rfl
      rw [hnotifies, Bool.or_true]
      exact harmed.notify
  | @dropped q id s' hdrops hleases =>
      refine hor (harmed.mono fun d hd => ⟨d, ?_, Nat.le_refl d⟩)
      obtain ⟨id', ls, hls, rfl⟩ := mem_deadlines.mp hd
      rw [hleases, ExtTreeMap.getElem?_erase] at hls
      split at hls
      · cases hls
      · exact mem_deadlines.mpr ⟨id', ls, hls, rfl⟩

/-- **One event.** A move of the task is one of `Lib.Alarm`, the clock only goes forward, and a
request that may bring a deadline forward leaves a permit. -/
theorem Expiry.Armed.step {x x' : Expiry} {ev : ExpiryEvent} (h : x.Armed)
    (hstep : x.step ev = some x') : x'.Armed := by
  cases Expiry.moves_of_step hstep with
  | pass => exact h.pass _
  | restart | idle | remove => trivial
  | @server ev sys htimely hrestart hsys =>
      rcases System.leases_of_step hrestart hsys with hleases | ⟨q, rfl, hmoves⟩
      · have hdeadlines : sys.store.deadlines = x.sys.store.deadlines := by
          rw [StoreState.deadlines, hleases]
          rfl
        rw [Expiry.Armed]
        dsimp only
        rw [hdeadlines]
        cases ev.notifies x.sys.store with
        | false => rw [Bool.or_false]; exact h
        | true => rw [Bool.or_true]; exact h.notify
      · exact armed_of_leaseMoves hmoves h
  | task hmove => exact Sleeper.Armed.step h hmove

/-! ### The removal

The loop of the task is not a request, but each of its rounds does what the request `leaseExpire` of
the model does.
-/

/-- Removing a lease that is due is its expiry. -/
theorem exec_removeLease {s : StoreState} {id : Int64} {now : Nat} (hid : id ∈ s.expired now) :
    exec (removeLease id) s = exec (leaseExpire now id) s := by
  obtain ⟨ls, hls, hdue⟩ := mem_expired.mp hid
  unfold removeLease leaseExpire
  rw [Prog.exec_bind get, Prog.exec_get]
  dsimp only
  rw [hls]
  dsimp only
  refine Eq.trans ?_ (congrArg (fun m : StoreM Unit => exec m s) (if_pos hdue)).symm
  -- the two differ in nothing but the handlers, which do the same
  refine congrArg (fun handler : Failure → StoreM Unit => exec (do
    modify fun s => { s with leases := s.leases.erase id }
    tryCatch (deleteKeysForLease id) handler) s) (funext fun e => ?_)
  cases e <;> rfl

/-- The keys of a lease can be deleted. -/
theorem exec_deleteKeysForLease {s : StoreState} (hs : s.wal.faults = []) (h : Blobs s.keyspace)
    (id : Int64) : ∃ s', exec (deleteKeysForLease id) s = (.ok (), s') := by
  unfold deleteKeysForLease
  rw [Prog.exec_bind, Prog.exec_get]
  dsimp only
  split
  · exact ⟨s, rfl⟩
  · obtain ⟨w, hw⟩ := exec_appendKvBatch (s := { s with nextRev := s.nextRev + 1 }) hs
      (StoreState.deleteRecords { s with nextRev := s.nextRev + 1 }
        ((s.keys.toList.filter fun e => e.2.lease = id && e.2.isAlive).map (·.1)) s.nextRev)
      (.status .internal "WAL write failed during lease key deletion")
    have haccepts : ∀ w' ∈ StoreState.deletes { s with nextRev := s.nextRev + 1, wal := w }
        ((s.keys.toList.filter fun e => e.2.lease = id && e.2.isAlive).map (·.1)) s.nextRev,
        s.keyspace.Accepts w' := by
      intro w' hw'
      simp only [StoreState.deletes, List.mem_filterMap, Option.map_eq_some_iff] at hw'
      obtain ⟨key, -, prev, hprev, rfl⟩ := hw'
      exact ⟨hprev, (h key prev (aliveIn_eq_some.mp hprev).1).patches _⟩
    obtain ⟨s', hs'⟩ := exec_applyDeletes (nodup_keys_of_sublist List.filter_sublist) s.nextRev
      (s := { s with nextRev := s.nextRev + 1, wal := w }) haccepts
    refine ⟨s', ?_⟩
    rw [Prog.exec_bind]
    dsimp only [allocRevision, Prog.exec_modifyGet]
    rw [Prog.exec_bind, Prog.exec_get]
    dsimp only
    rw [Prog.exec_bind, hw]
    exact hs'

/-! ### A round of the task -/

/-- The leases `ids` were dropped. -/
structure DroppedAll (ids : List Int64) (s s' : StoreState) : Prop where
  leases : ∀ id : Int64, s'.leases[id]? = if id ∈ ids then none else s.leases[id]?
  alive : ∀ key : Bytes, s'.alive? key = (s.alive? key).filter (·.lease ∉ ids)

omit [Crates] in
theorem droppedAll_nil (s : StoreState) : DroppedAll [] s s where
  leases := by simp
  alive := fun key => by cases hks : s.alive? key <;> simp [Option.filter]

omit [Crates] in
theorem Dropped.alive_eq {id : Int64} {s s' : StoreState} (h : Dropped id s s') (key : Bytes) :
    s'.alive? key = (s.alive? key).filter (·.lease ≠ id) := by
  cases hks : s.alive? key with
  | none =>
      have hsame := h.others key (by simp [hks])
      rw [Option.filter_none, ← hks, StoreState.alive?, StoreState.alive?, aliveIn, aliveIn, hsame]
  | some ks =>
      by_cases hlease : ks.lease = id
      · rw [h.deleted key ks hks hlease, Option.filter_some, if_neg (by simpa using hlease)]
      · have hsame := h.others key (by simpa [hks] using hlease)
        rw [Option.filter_some, if_pos (by simpa using hlease), ← hks, StoreState.alive?,
          StoreState.alive?, aliveIn, aliveIn, hsame]

omit [Crates] in
/-- One lease after the other. -/
theorem Dropped.cons {id : Int64} {ids : List Int64} {s s₁ s' : StoreState} (h : Dropped id s s₁)
    (h' : DroppedAll ids s₁ s') : DroppedAll (id :: ids) s s' where
  leases := by
    intro i
    rw [h'.leases, h.leases, ExtTreeMap.getElem?_erase]
    by_cases hi : i = id
    · subst hi
      simp
    · have hne : id ≠ i := Ne.symm hi
      simp [hi, hne]
  alive := by
    intro key
    rw [h'.alive, h.alive_eq, Option.filter_filter]
    congr 1
    funext ks
    simp [List.mem_cons, not_or]

/-- The expiries that the loop amounts to. -/
def removals (now : Nat) (ids : List Int64) : List Event :=
  ids.map fun id => .request (.leaseExpire now id)

variable [LawfulCrates]

/-- **The loop** removes the leases it is given, and does not panic. By induction on the leases that
are due: each removal is one event of the server, after which the others are still due. -/
theorem run_removals {now : Nat} {ids : List Int64} (hnodup : ids.Nodup) :
    ∀ {sys : System}, Journaled sys → Encoded sys → (∀ id ∈ ids, id ∈ sys.store.expired now) →
      Trace.Along System.step System.StepOk sys (removals now ids) →
      ∃ s', exec (removeLeases ids) sys.store = (.ok (), s') ∧
        sys.run (removals now ids) = some { sys with store := s' } ∧
        DroppedAll ids sys.store s' := by
  induction ids with
  | nil =>
      intro sys _ _ _ _
      exact ⟨sys.store, rfl, rfl, droppedAll_nil _⟩
  | cons id ids ih =>
      intro sys hj he hdue hok
      obtain ⟨hid, hids⟩ := List.nodup_cons.mp hnodup
      obtain ⟨ls, hls, hexpired⟩ := mem_expired.mp (hdue id List.mem_cons_self)
      have hdrops : Request.drops sys.store (.leaseExpire now id) = some id := by
        rw [Request.drops, hls]
        exact if_pos (by simpa using hexpired)
      obtain ⟨s₁, hremove⟩ : ∃ s₁, exec (removeLease id) sys.store = (.ok (), s₁) := by
        obtain ⟨s₁, hs₁⟩ := exec_deleteKeysForLease
          (s := { sys.store with leases := sys.store.leases.erase id }) hj.faults he.entries id
        refine ⟨s₁, ?_⟩
        rw [removeLease, Prog.exec_bind]
        dsimp only [Prog.exec_modify]
        rw [Prog.exec_tryCatch, hs₁]
      have hanswer : answer sys.store (.leaseExpire now id) = some s₁ := by
        rw [answer, handle, Prog.exec_bind, ← exec_removeLease (hdue id List.mem_cons_self),
          hremove]
        rfl
      have hstep : sys.step (.request (.leaseExpire now id)) = some { sys with store := s₁ } := by
        rw [System.step, hanswer]
        rfl
      obtain ⟨hdropped, -⟩ := answer_dropped hj.faults hok.1.2.1 hdrops hanswer
      -- each removal is the expiry of a due lease as a request; the leases after it are due as
      -- before
      obtain ⟨s', hexec, hrun, hall⟩ := ih hids (hj.step hok.1 hstep) (he.step hj hok.1 hstep)
        (by
          intro i hi
          obtain ⟨ls, hls, hexpired⟩ := mem_expired.mp (hdue i (List.mem_cons_of_mem _ hi))
          refine mem_expired.mpr ⟨ls, ?_, hexpired⟩
          have hne : id ≠ i := by
            rintro rfl
            exact hid hi
          rw [hdropped.leases, ExtTreeMap.getElem?_erase]
          simpa [hne] using hls)
        (hok.2 _ hstep)
      refine ⟨s', ?_, ?_, hdropped.cons hall⟩
      · show exec (removeLease id >>= fun _ => removeLeases ids) sys.store = _
        rw [Prog.exec_bind, hremove]
        exact hexec
      · rw [System.run, removals, List.map_cons, Trace.run_cons, hstep]
        exact hrun

/-! ### Every run -/

/-- The server's own condition, also for the requests that a round of the task amounts to. -/
def Expiry.StepOk (x : Expiry) : ExpiryEvent → Prop
  | .server ev => x.sys.StepOk ev
  | .expire => Trace.Along System.step System.StepOk x.sys
      (removals x.now (x.sys.store.expired x.now))
  | _ => True

instance (x : Expiry) : DecidablePred x.StepOk
  | .pass _ | .task _ => .isTrue trivial
  | .server ev => inferInstanceAs (Decidable (x.sys.StepOk ev))
  | .expire => inferInstanceAs (Decidable (Trace.Along ..))

/-- What holds in every run. -/
structure Expiry.Sound (x : Expiry) : Prop where
  armed : x.Armed
  journaled : Journaled x.sys
  encoded : Encoded x.sys

theorem Expiry.Sound.step {x x' : Expiry} {ev : ExpiryEvent} (h : x.Sound) (hok : x.StepOk ev)
    (hstep : x.step ev = some x') : x'.Sound := by
  have hkeep : ∀ (sys : System) ev sys', Journaled sys ∧ Encoded sys → sys.StepOk ev →
      sys.step ev = some sys' → Journaled sys' ∧ Encoded sys' := by
    intro sys ev sys' h hok hstep
    exact ⟨h.1.step hok hstep, h.2.step h.1 hok hstep⟩
  have hstored : Journaled x'.sys ∧ Encoded x'.sys := by
    cases Expiry.moves_of_step hstep with
    | pass | task | idle => exact ⟨h.journaled, h.encoded⟩
    | restart hsys => exact hkeep _ _ _ ⟨h.journaled, h.encoded⟩ hok hsys
    | server _ _ hsys => exact hkeep _ _ _ ⟨h.journaled, h.encoded⟩ hok hsys
    | @remove store _ hexec =>
        obtain ⟨s', hexec', hrun, -⟩ := run_removals (nodup_expired _ _) h.journaled h.encoded
          (fun _ hid => hid) hok
        rw [hexec] at hexec'
        cases hexec'
        exact Trace.invariant hkeep ⟨h.journaled, h.encoded⟩ hok hrun
  exact ⟨h.armed.step hstep, hstored.1, hstored.2⟩

end

section

variable [Crates]

/-! ### A lease that nobody revokes

The other side: the task takes no lease early. The time of a lease only changes by a renewal, and a
renewal counts from now.
-/

/-- Nobody revokes the lease, and the process lives on. -/
def ExpiryEvent.spares (id : Int64) : ExpiryEvent → Bool
  | .server (.request (.leaseRevoke id')) => id' ≠ id
  | .server ev => !ev.isRestart
  | _ => true

/-- A lease has an admissible TTL, and it would not expire earlier if it were renewed now. So a
renewal never brings the expiry forward. -/
structure LeaseState.Timed (now : Nat) (ls : LeaseState) : Prop where
  ttl_ge : leaseMinTtl ≤ ls.ttl
  ttl_le : ls.ttl ≤ leaseMaxTtl
  expiresAt_le : ls.expiresAt ≤ expiryInstant now ls.ttl

/-- So it is for every lease. -/
def Expiry.Renewable (x : Expiry) : Prop :=
  ∀ (id : Int64) (ls : LeaseState), x.sys.store.leases[id]? = some ls → ls.Timed x.now

theorem removeLease_leases (id : Int64) (s : StoreState) :
    (removeLease id).Spec s fun _ s' => s'.leases = s.leases.erase id := by
  unfold removeLease
  refine Prog.spec_modify_bind (Prog.spec_tryCatch ?_ ?_)
  · intro e s' hpanic
    cases e with
    | status code m => cases hpanic
    | panic m => exact ⟨.panic m, rfl, rfl⟩
  · refine (deleteKeysForLease_leases id _).mono ?_
    intro r s' hr
    cases r with
    | ok a => exact hr
    | error e =>
        cases e with
        | status code m => exact Prog.spec_pure hr
        | panic m => exact Prog.spec_throw fun _ => hr

/-- The loop touches no other lease. -/
theorem removeLeases_leases (ids : List Int64) (s : StoreState) :
    (removeLeases ids).Spec s fun _ s' =>
      (∀ (id : Int64) ls, s'.leases[id]? = some ls → s.leases[id]? = some ls) ∧
        ∀ id : Int64, id ∉ ids → s'.leases[id]? = s.leases[id]? := by
  induction ids generalizing s with
  | nil => exact Prog.spec_pure ⟨fun _ _ h => h, fun _ _ => rfl⟩
  | cons id ids ih =>
      have herase : ∀ {i : Int64} {ls : LeaseState} {s₁ : StoreState},
          s₁.leases = s.leases.erase id → s₁.leases[i]? = some ls → s.leases[i]? = some ls := by
        intro i ls s₁ hs₁ hls
        rw [hs₁, ExtTreeMap.getElem?_erase] at hls
        split at hls
        · cases hls
        · exact hls
      have hother : ∀ {i : Int64} {s₁ : StoreState}, s₁.leases = s.leases.erase id → i ≠ id →
          s₁.leases[i]? = s.leases[i]? := by
        intro i s₁ hs₁ hi
        rw [hs₁, ExtTreeMap.getElem?_erase]
        simp [Ne.symm hi]
      show StoreM.Spec (removeLease id >>= fun _ => removeLeases ids) s _
      refine (removeLease_leases id s).bind ?_ ?_
      · intro e s' hs'
        exact ⟨fun i ls => herase hs', fun i hi => hother hs' (List.ne_of_not_mem_cons hi)⟩
      · intro _ s₁ hs₁
        refine (ih s₁).mono fun _ s' hs' => ⟨fun i ls hls => herase hs₁ (hs'.1 i ls hls), ?_⟩
        intro i hi
        rw [hs'.2 i (List.not_mem_of_not_mem_cons hi),
          hother hs₁ (List.ne_of_not_mem_cons hi)]

omit [Crates] in
theorem insertAll_leases {P : LeaseState → Prop} {f : Int64 → LeaseState} (hf : ∀ id, P (f id))
    {ids : List Int64} {m : ExtTreeMap Int64 LeaseState}
    (hm : ∀ (id : Int64) ls, m[id]? = some ls → P ls) (id : Int64) (ls : LeaseState)
    (hls : (ids.foldl (fun m id => m.insert id (f id)) m)[id]? = some ls) : P ls := by
  induction ids generalizing m with
  | nil => exact hm id ls hls
  | cons i ids ih =>
      refine ih ?_ hls
      intro id' ls' hls'
      rw [ExtTreeMap.getElem?_insert] at hls'
      split at hls'
      · cases hls'
        exact hf i
      · exact hm id' ls' hls'

omit [Crates] in
theorem checkLeaseTtl_bounds {ttl t : Int64} (h : checkLeaseTtl ttl = .ok t) :
    leaseMinTtl ≤ t ∧ t ≤ leaseMaxTtl := by
  unfold checkLeaseTtl at h
  split at h
  · cases h
  · next hmax =>
      cases h
      split
      · exact ⟨Int64.le_refl _, by decide⟩
      · next hmin => exact ⟨Int64.not_lt.mp hmin, Int64.not_lt.mp hmax⟩

omit [Crates] in
/-- A lease that a request does not revoke keeps its time. -/
theorem LeaseMoves.kept {s s' : StoreState} {q : Request} {now : Nat} (h : LeaseMoves s q s')
    (htimely : Event.timely now (.request q) = true)
    (htimed : ∀ (id : Int64) ls, s.leases[id]? = some ls → ls.Timed now) :
    (∀ (id : Int64) ls, s'.leases[id]? = some ls → ls.Timed now) ∧
      ∀ {id : Int64} {ls : LeaseState}, q ≠ .leaseRevoke id → s.leases[id]? = some ls →
        ∃ ls', s'.leases[id]? = some ls' ∧ ls'.ttl = ls.ttl ∧ ls.expiresAt ≤ ls'.expiresAt := by
  have hinsert : ∀ {id' : Int64} {ls' : LeaseState}, s'.leases = s.leases.insert id' ls' →
      ls'.Timed now → ∀ (id : Int64) ls, s'.leases[id]? = some ls → ls.Timed now := by
    intro id' ls' hleases hls' id ls hls
    rw [hleases, ExtTreeMap.getElem?_insert] at hls
    split at hls
    · cases hls
      exact hls'
    · exact htimed id ls hls
  have hother : ∀ {id id' : Int64} {ls ls' : LeaseState}, s'.leases = s.leases.insert id' ls' →
      id' ≠ id → s.leases[id]? = some ls → s'.leases[id]? = some ls := by
    intro id id' ls ls' hleases hne hls
    rw [hleases, ExtTreeMap.getElem?_insert, if_neg (by simpa using hne), hls]
  cases h with
  | same hleases =>
      rw [hleases]
      exact ⟨htimed, fun _ hls => ⟨_, hls, rfl, Nat.le_refl _⟩⟩
  | @granted t id ttl id' ttl' s' hnew httl hnotifies hleases =>
      obtain rfl : t = now := of_decide_eq_true htimely
      obtain ⟨hmin, hmax⟩ := checkLeaseTtl_bounds httl
      refine ⟨hinsert hleases ⟨hmin, hmax, Nat.le_refl _⟩, ?_⟩
      intro i ls _ hls
      refine ⟨ls, hother hleases ?_ hls, rfl, Nat.le_refl _⟩
      rintro rfl
      rw [hnew] at hls
      cases hls
  -- a renewal counts from now, and so does not end before the old expiry
  | @renewed t id' ls' s' hls' hleases =>
      obtain rfl : t = now := of_decide_eq_true htimely
      have hold := htimed id' ls' hls'
      refine ⟨hinsert hleases ⟨hold.ttl_ge, hold.ttl_le, Nat.le_refl _⟩, ?_⟩
      intro i ls _ hls
      by_cases hi : id' = i
      · subst hi
        rw [hls'] at hls
        cases hls
        refine ⟨{ ls' with expiresAt := expiryInstant t ls'.ttl }, ?_, rfl, hold.expiresAt_le⟩
        rw [hleases, ExtTreeMap.getElem?_insert_self]
      · exact ⟨ls, hother hleases hi hls, rfl, Nat.le_refl _⟩
  | @dropped q id' s' hdrops hleases =>
      refine ⟨?_, ?_⟩
      · intro id ls hls
        rw [hleases, ExtTreeMap.getElem?_erase] at hls
        split at hls
        · cases hls
        · exact htimed id ls hls
      · intro i ls hq hls
        refine ⟨ls, ?_, rfl, Nat.le_refl _⟩
        -- what is dropped is what the request names, and expiries come from the task alone
        have hne : id' ≠ i := by
          rintro rfl
          cases q with
          | leaseRevoke id =>
              simp only [Request.drops, Option.ite_none_right_eq_some, Option.some.injEq] at hdrops
              exact hq (congrArg _ hdrops.2)
          | leaseExpire now' id => cases htimely
          | range | put | deleteRange | txn | compact | leaseGrant | leaseKeepAlive => cases hdrops
        rw [hleases, ExtTreeMap.getElem?_erase, if_neg (by simpa using hne), hls]

/-- **One event**, for all leases and for one that is spared. -/
theorem Expiry.Renewable.step {x x' : Expiry} {ev : ExpiryEvent} (h : x.Renewable)
    (hstep : x.step ev = some x') :
    x'.Renewable ∧ x.now ≤ x'.now ∧
      ∀ {id : Int64} {ls : LeaseState}, ev.spares id = true → x.sys.store.leases[id]? = some ls →
        x'.now < ls.expiresAt → ∃ ls', x'.sys.store.leases[id]? = some ls' ∧ ls'.ttl = ls.ttl ∧
          ls.expiresAt ≤ ls'.expiresAt := by
  cases Expiry.moves_of_step hstep with
  | @pass ns =>
      refine ⟨?_, Nat.le_add_right _ _, fun _ hls _ => ⟨_, hls, rfl, Nat.le_refl _⟩⟩
      intro id ls hls
      obtain ⟨hmin, hmax, hle⟩ := h id ls hls
      refine ⟨hmin, hmax, ?_⟩
      unfold expiryInstant at hle ⊢
      dsimp only
      omega
  | task | idle => exact ⟨h, Nat.le_refl _, fun _ hls _ => ⟨_, hls, rfl, Nat.le_refl _⟩⟩
  -- restored leases have an hour from now
  | @restart sys hsys =>
      refine ⟨?_, Nat.le_refl _, fun hspares => nomatch hspares⟩
      obtain ⟨s', hs', rfl⟩ := Option.map_eq_some_iff.mp hsys
      obtain ⟨recs, n, K, -, -, rfl⟩ := openStore_eq_ok (Prog.ok_of_toOption hs')
      exact insertAll_leases (P := LeaseState.Timed x.now)
        (fun id => ⟨show leaseMinTtl ≤ 3600 by decide, show 3600 ≤ leaseMaxTtl by decide,
          Nat.le_refl _⟩)
        (by simp [StoreState.new, StoreState.withKeyspace])
  | @server ev sys htimely hrestart hsys =>
      rcases System.leases_of_step hrestart hsys with hleases | ⟨q, rfl, hmoves⟩
      · rw [Expiry.Renewable]
        dsimp only
        rw [hleases]
        exact ⟨h, Nat.le_refl _, fun _ hls _ => ⟨_, hls, rfl, Nat.le_refl _⟩⟩
      · obtain ⟨hrenewable, hkept⟩ := hmoves.kept htimely h
        refine ⟨hrenewable, Nat.le_refl _, fun hspares hls _ => hkept ?_ hls⟩
        rintro rfl
        exact absurd hspares (by simp [ExpiryEvent.spares])
  | @remove store hawake hexec =>
      have hleases := (removeLeases_leases _ _).of_ok hexec
      refine ⟨fun id ls hls => h id ls (hleases.1 id ls hls), Nat.le_refl _, ?_⟩
      intro id ls _ hls hnow
      refine ⟨ls, ?_, rfl, Nat.le_refl _⟩
      dsimp only
      rw [hleases.2 id ?_, hls]
      -- the round removes what is due, and this lease is not
      intro hexpired
      obtain ⟨ls', hls', hdue⟩ := mem_expired.mp hexpired
      rw [hls] at hls'
      cases hls'
      exact absurd hnow (Nat.not_lt.mpr hdue)

theorem Expiry.renewable_of_run {now₀ : Nat} {evs : List ExpiryEvent} {x : Expiry}
    (hrun : (Expiry.start ⟨fresh, none⟩ now₀).run evs = some x) : x.Renewable := by
  have hfresh : (Expiry.start ⟨fresh, none⟩ now₀).Renewable := by
    intro id ls hls
    simp [Expiry.start, fresh, StoreState.new] at hls
  exact Trace.invariant_of_step (fun _ _ _ h hstep => (h.step hstep).1) hfresh hrun

/-- The clock does not go back. -/
theorem Expiry.Renewable.later {x x' : Expiry} {evs : List ExpiryEvent} (h : x.Renewable)
    (hrun : x.run evs = some x') : x'.Renewable ∧ x.now ≤ x'.now := by
  have hstep : ∀ (y : Expiry) ev y', y.Renewable ∧ x.now ≤ y.now → y.step ev = some y' →
      y'.Renewable ∧ x.now ≤ y'.now := by
    intro y ev y' hy hstep
    obtain ⟨hrenewable, hclock, -⟩ := hy.1.step hstep
    exact ⟨hrenewable, Nat.le_trans hy.2 hclock⟩
  exact Trace.invariant_of_step hstep ⟨h, Nat.le_refl _⟩ hrun

/-- **A run that spares a lease.** -/
theorem Expiry.Renewable.run {x x' : Expiry} {evs : List ExpiryEvent} (h : x.Renewable)
    (hrun : x.run evs = some x') {id : Int64} {ls : LeaseState}
    (hls : x.sys.store.leases[id]? = some ls) (hspares : ∀ ev ∈ evs, ev.spares id = true)
    (hnow : x'.now < ls.expiresAt) :
    ∃ ls', x'.sys.store.leases[id]? = some ls' ∧ ls'.ttl = ls.ttl ∧
      ls.expiresAt ≤ ls'.expiresAt := by
  have hstep : ∀ (y : Expiry) ev y', (y.Renewable ∧ (y.now < ls.expiresAt →
        ∃ ls', y.sys.store.leases[id]? = some ls' ∧ ls'.ttl = ls.ttl ∧
          ls.expiresAt ≤ ls'.expiresAt)) → ev.spares id = true → y.step ev = some y' →
      y'.Renewable ∧ (y'.now < ls.expiresAt → ∃ ls', y'.sys.store.leases[id]? = some ls' ∧
        ls'.ttl = ls.ttl ∧ ls.expiresAt ≤ ls'.expiresAt) := by
    intro y ev y' hy hspares hstep
    obtain ⟨hrenewable, hclock, hkept⟩ := hy.1.step hstep
    refine ⟨hrenewable, fun hnow => ?_⟩
    obtain ⟨ls₁, hls₁, httl₁, hle₁⟩ := hy.2 (by omega)
    obtain ⟨ls₂, hls₂, httl₂, hle₂⟩ := hkept hspares hls₁ (by omega)
    exact ⟨ls₂, hls₂, httl₂.trans httl₁, Nat.le_trans hle₁ hle₂⟩
  exact (Trace.invariant hstep ⟨h, fun _ => ⟨ls, hls, rfl, Nat.le_refl _⟩⟩
    (Trace.along_of_mem hspares x) hrun).2 hnow

/-- **A lease is kept until it is due.** However requests, compactions and rounds of the task came
one after the other since a lease was seen in a state of the server: if it was not revoked, and if
there was no restart, it is there until the instant that was its expiry then, with its TTL, and its
expiry is not earlier than it was. -/
theorem lease_kept_until_due {now₀ : Nat} {evs evs' : List ExpiryEvent} {x x' : Expiry}
    (hrun : (Expiry.start ⟨fresh, none⟩ now₀).run evs = some x) (hrun' : x.run evs' = some x')
    {id : Int64} {ls : LeaseState} (hls : x.sys.store.leases[id]? = some ls)
    (hspares : ∀ ev ∈ evs', ev.spares id = true) (hnow : x'.now < ls.expiresAt) :
    ∃ ls', x'.sys.store.leases[id]? = some ls' ∧ ls'.ttl = ls.ttl ∧
      ls.expiresAt ≤ ls'.expiresAt :=
  (Expiry.renewable_of_run hrun).run hrun' hls hspares hnow

end

/-- The lease is renewed after the task has gone to sleep; when the task gets up, it finds nothing
due. -/
theorem lease_kept_until_due_renewed :
    ∃ (x x' : Expiry) (ls ls' : LeaseState),
      (Expiry.start ⟨fresh, none⟩ 0).run [.server (.request (.leaseGrant 0 7 5)), .task .look,
        .task .sleep, .pass 4000000000,
        .server (.request (.leaseKeepAlive 4000000000 7))] = some x ∧
      x.sys.store.leases[(7 : Int64)]? = some ls ∧
      x.run [.task .notified, .expire, .task .look, .task .sleep, .pass 3000000000] = some x' ∧
      x'.sys.store.leases[(7 : Int64)]? = some ls' ∧ 5000000000 < x'.now ∧
      x'.now < ls.expiresAt ∧ ls.expiresAt ≤ ls'.expiresAt := by
  have hrun : ((Expiry.start ⟨fresh, none⟩ 0).run [.server (.request (.leaseGrant 0 7 5)),
      .task .look, .task .sleep, .pass 4000000000,
      .server (.request (.leaseKeepAlive 4000000000 7))]).any (fun x =>
        (x.sys.store.leases[(7 : Int64)]?).any fun ls =>
          (x.run [.task .notified, .expire, .task .look, .task .sleep, .pass 3000000000]).any
            fun x' => decide (5000000000 < x'.now ∧ x'.now < ls.expiresAt)) = true := by
    decide +kernel
  obtain ⟨x, hx, hrun⟩ := (Option.any_eq_true _ _).mp hrun
  obtain ⟨ls, hls, hrun⟩ := (Option.any_eq_true _ _).mp hrun
  obtain ⟨x', hx', hfacts⟩ := (Option.any_eq_true _ _).mp hrun
  obtain ⟨hpast, hnow⟩ := of_decide_eq_true hfacts
  obtain ⟨ls', hls', -, hle⟩ := lease_kept_until_due hx hx' hls (by decide) hnow
  exact ⟨x, x', ls, ls', hx, hls, hx', hls', hpast, hnow, hle⟩

end Rudurru
