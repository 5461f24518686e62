import Rudurru.Storage.OpenSound
import Rudurru.System

/-!
# Rudurru.SystemSound

Runs of requests as runs of the keyspace. A request that returns serves writes at one fresh
revision (`answer_served`), so a sequence of requests commits a run of writes whose revisions
do not decrease (`serve_commits`).

`next_rev` is a `u64`; everything about the order of revisions is stated for runs that do not
exhaust it.

`Moves` inverts `System.step`: whatever the event, it says what became of the store and of a
compaction under way, with the writes that a request served. Every invariant of a whole server is
proved from it, one case per kind of event, and never from the code of the requests.
-/

namespace Rudurru

open Prog (exec)

variable [Crates]

/-! ### One request -/

omit [Crates] in
/-- Every handler wraps the result of one operation. -/
theorem StoreM.spec_wrap {α β : Type} {x : StoreM α} {g : α → β} {s : StoreState}
    {E : StoreState → Prop} (h : x.Spec s fun _ s' => E s') :
    StoreM.Spec (do let a ← x; pure (g a)) s fun _ s' => E s' :=
  h.bind (fun _ _ hr => hr) fun _ _ hr => Prog.spec_pure hr

/-- Whatever the request, it serves some writes and tells the watchers of them. -/
theorem handle_spec (q : Request) {s : StoreState} (h : s.wal.faults = []) :
    (handle q).Spec s fun _ s' => ∃ ws, Published s ws s' := by
  cases q with
  | range req =>
      exact StoreM.spec_read_bind (fun _ _ => ⟨[], .refl h⟩)
        fun _ _ => Prog.spec_pure ⟨[], .refl h⟩
  | put req => exact StoreM.spec_wrap (put_spec req h)
  | deleteRange req => exact StoreM.spec_wrap (deleteRange_spec req h)
  | txn req => exact StoreM.spec_wrap (txn_spec req h)
  | compact revision => exact StoreM.spec_wrap (compact_spec revision h)
  | leaseGrant now id ttl => exact StoreM.spec_wrap (leaseGrant_spec now id ttl h)
  | leaseRevoke id => exact StoreM.spec_wrap (leaseRevoke_spec id h)
  | leaseKeepAlive now id => exact StoreM.spec_wrap (leaseKeepAlive_spec now id h)
  | leaseExpire now id => exact StoreM.spec_wrap (leaseExpire_spec now id h)

/-- A request that returns has run to its end. -/
theorem answer_eq_some {s s' : StoreState} {q : Request} (h : answer s q = some s') :
    (exec (handle q) s).2 = s' ∧ ∀ e, (exec (handle q) s).1 = .error e → e.isPanic = false := by
  unfold answer at h
  split at h
  · cases h
  · next r s'' hne hexec =>
      cases h
      rw [hexec]
      refine ⟨rfl, ?_⟩
      rintro (⟨code, m⟩ | m) he
      · rfl
      · obtain rfl : r = .error (.panic m) := he
        exact absurd rfl (hne m)

/-- What a handler guarantees holds after a request that returns. -/
theorem answer_spec {s s' : StoreState} {q : Request} {E : StoreState → Prop}
    (h : (handle q).Spec s fun _ s' => E s') (hq : answer s q = some s') : E s' := by
  obtain ⟨rfl, hret⟩ := answer_eq_some hq
  refine h ?_
  intro e he hpanic
  rw [hret e he] at hpanic
  cases hpanic

/-- **Every request that returns serves a run of writes**, and tells the watchers. A panic ends the
process, so it is not an answer; an error is one, and may come after some writes. -/
theorem answer_published {s s' : StoreState} {q : Request} (hs : s.wal.faults = [])
    (h : answer s q = some s') : ∃ ws, Published s ws s' :=
  answer_spec (handle_spec q hs) h

/-- The same of a request that was answered, without the watchers. -/
theorem answer_served {s s' : StoreState} {q : Request} (hs : s.wal.faults = [])
    (h : answer s q = some s') : ∃ ws, Served s ws s' := by
  obtain ⟨ws, hws⟩ := answer_published hs h
  exact ⟨ws, hws.toServed⟩

theorem answer_of_ok {s s' : StoreState} {q : Request} {reply : Reply}
    (h : exec (handle q) s = (.ok reply, s')) : answer s q = some s' := by
  rw [answer, h]

/-- A successful write answers with the header of the state it leaves. -/
theorem handle_header {s s' : StoreState} {q : Request} {reply : Reply} {header : ResponseHeader}
    (h : exec (handle q) s = (.ok reply, s')) (hheader : reply.writeHeader = some header) :
    header = s'.header := by
  have hwrap : ∀ {α : Type} {x : StoreM α} {f : α → ResponseHeader} {g : α → Reply},
      (x.Spec s fun r s' => HasHeader f r s') → (∀ a, (g a).writeHeader = some (f a)) →
        exec (do let a ← x; pure (g a)) s = (.ok reply, s') → header = s'.header := by
    intro α x f g hx hg hexec
    rw [Prog.exec_bind] at hexec
    unfold StoreM.Spec Prog.Spec at hx
    rcases hr : exec x s with ⟨r, s₁⟩
    rw [hr] at hexec hx
    cases r with
    | error e => cases hexec
    | ok a =>
        cases hexec
        rw [hg] at hheader
        cases hheader
        exact hx (by simp) a rfl
  -- the other replies carry no header of a write
  have hother : ∀ {α : Type} {x : StoreM α} {g : α → Reply}, (∀ a, (g a).writeHeader = none) →
      exec (do let a ← x; pure (g a)) s = (.ok reply, s') → header = s'.header := by
    intro α x g hg hexec
    rw [Prog.exec_bind] at hexec
    rcases hr : exec x s with ⟨r, s₁⟩
    rw [hr] at hexec
    cases r with
    | error e => cases hexec
    | ok a =>
        cases hexec
        rw [hg] at hheader
        cases hheader
  cases q with
  | put req => exact hwrap (put_header req s) (fun _ => rfl) h
  | deleteRange req => exact hwrap (deleteRange_header req s) (fun _ => rfl) h
  | txn req => exact hwrap (txn_header req s) (fun _ => rfl) h
  | range req => exact hother (fun _ => rfl) h
  | compact revision => exact hother (fun _ => rfl) h
  | leaseGrant now id ttl => exact hother (fun _ => rfl) h
  | leaseRevoke id => exact hother (fun _ => rfl) h
  | leaseKeepAlive now id => exact hother (fun _ => rfl) h
  | leaseExpire now id => exact hother (fun _ => rfl) h

/-! ### Sequences of requests -/

theorem serve_cons {s s'' : StoreState} {q : Request} {qs : List Request} :
    serve s (q :: qs) = some s'' ↔ ∃ s', answer s q = some s' ∧ serve s' qs = some s'' := by
  rw [serve, Trace.run_cons, Option.bind_eq_some_iff]
  rfl

/-- A sequence of requests commits a run of writes. -/
theorem serve_commits {s s' : StoreState} {qs : List Request} (hs : s.wal.faults = [])
    (h : serve s qs = some s') : ∃ ws, Commits s ws s' := by
  induction qs generalizing s with
  | nil =>
      cases h
      exact ⟨[], .refl hs⟩
  | cons q qs ih =>
      obtain ⟨s₁, hq, hqs⟩ := serve_cons.mp h
      obtain ⟨ws, hws⟩ := answer_served hs hq
      obtain ⟨vs, hvs⟩ := ih hws.faults hqs
      exact ⟨ws ++ vs, hws.toCommits.trans hvs⟩

/-! ### Revisions -/

omit [Crates] in
/-- The current revision is the one before the counter. -/
theorem toNat_currentRevision {s : StoreState} (h : 0 < s.nextRev.toNat) :
    s.currentRevision.toNat + 1 = s.nextRev.toNat := by
  have hne : s.nextRev ≠ 0 := by
    intro hzero
    rw [hzero] at h
    exact absurd h (Nat.lt_irrefl 0)
  have hone : (1 : UInt64) ≤ s.nextRev := UInt64.le_iff_toNat_le.mpr h
  rw [StoreState.currentRevision, if_neg hne, UInt64.toNat_sub_of_le _ _ hone, UInt64.toNat_one]
  omega

/-- `next_rev` moves by at most one in a request. -/
theorem Served.toNat_nextRev {s s' : StoreState} {ws : List Write} (h : Served s ws s')
    (hlt : s.nextRev.toNat + 1 < 2 ^ 64) :
    s.nextRev.toNat ≤ s'.nextRev.toNat ∧ s'.nextRev.toNat ≤ s.nextRev.toNat + 1 ∧
      ∀ w ∈ ws, w.rev = s.nextRev ∧ s'.nextRev.toNat = s.nextRev.toNat + 1 := by
  have hsucc : (s.nextRev + 1).toNat = s.nextRev.toNat + 1 := by
    rw [UInt64.toNat_add, UInt64.toNat_one]
    omega
  rcases h.nextRev with ⟨hnext, rfl⟩ | hnext
  · rw [hnext]
    exact ⟨by omega, by omega, by simp⟩
  · rw [hnext, hsucc]
    exact ⟨by omega, by omega, fun w hw => ⟨h.rev_eq w hw, rfl⟩⟩

/-- **Revisions along a run of requests**: `next_rev` counts up, each write lies between its
values before and after, and later writes have no smaller revisions. -/
theorem serve_revisions {s s' : StoreState} {qs : List Request} (hs : s.wal.faults = [])
    (h : serve s qs = some s') (hlt : s.nextRev.toNat + qs.length < 2 ^ 64) :
    s.nextRev.toNat ≤ s'.nextRev.toNat ∧ s'.nextRev.toNat ≤ s.nextRev.toNat + qs.length ∧
      ∃ ws, Commits s ws s' ∧
        (∀ w ∈ ws, s.nextRev.toNat ≤ w.rev.toNat ∧ w.rev.toNat < s'.nextRev.toNat) := by
  induction qs generalizing s with
  | nil =>
      cases h
      exact ⟨by omega, by omega, [], .refl hs, by simp⟩
  | cons q qs ih =>
      obtain ⟨s₁, hq, hqs⟩ := serve_cons.mp h
      obtain ⟨ws, hws⟩ := answer_served hs hq
      rw [List.length_cons] at hlt ⊢
      obtain ⟨hle, hle', hrev⟩ := hws.toNat_nextRev (by omega)
      obtain ⟨hle₁, hle₁', vs, hvs, hvsRev⟩ := ih hws.faults hqs (by omega)
      refine ⟨by omega, by omega, ws ++ vs, hws.toCommits.trans hvs, ?_⟩
      intro w hw
      rcases List.mem_append.mp hw with hw | hw
      · obtain ⟨hwr, hnext⟩ := hrev w hw
        rw [hwr]
        omega
      · have := hvsRev w hw
        omega

/-! ### One event -/

omit [Crates] in
theorem quiet_cancelWatcher (s : StoreState) (watchId : Int64) :
    Quiet s (s.cancelWatcher watchId) :=
  ⟨rfl, rfl, rfl, UInt64.le_refl _⟩

omit [Crates] in
theorem quiet_registerAll (ctxs : List WatchContext) (s : StoreState) :
    Quiet s (ctxs.foldl (fun s ctx => s.registerWatcher ctx.registration) s) := by
  induction ctxs generalizing s with
  | nil => exact .refl s
  | cons ctx ctxs ih =>
      obtain ⟨hwal, hkeys, hnext, hcompact⟩ := ih (s.registerWatcher ctx.registration)
      exact ⟨hwal, hkeys, hnext, hcompact⟩

omit [Crates] in
/-- Registering a batch puts its watchers behind those that are there. -/
theorem watchers_registerAll (ctxs : List WatchContext) (s : StoreState) :
    (ctxs.foldl (fun s ctx => s.registerWatcher ctx.registration) s).watchers
      = s.watchers ++ ctxs.map WatchContext.registration := by
  induction ctxs generalizing s with
  | nil => simp
  | cons ctx ctxs ih =>
      rw [List.foldl_cons, ih]
      simp [StoreState.registerWatcher]

omit [Crates] in
theorem mem_of_mem_swapRemove {α : Type} {l : List α} {i : Nat} {a : α} (h : a ∈ swapRemove l i) :
    a ∈ l := by
  unfold swapRemove at h
  split at h
  · next last hlast =>
      rcases List.mem_or_eq_of_mem_set (List.mem_of_mem_dropLast h) with h | rfl
      · exact h
      · exact List.mem_of_getLast? hlast
  · exact h

/-- Creating watchers is quiet. -/
theorem quiet_flushGlobalBatch (s : StoreState) (batch : List GlobalCreate) :
    Quiet s (flushGlobalBatch s batch).2 :=
  quiet_registerAll _ s

namespace System

/-- What an event can do, for a WAL whose appends succeed. -/
inductive Moves (sys : System) : Event → System → Prop
  | request {q : Request} {ws : List Write} {s' : StoreState} :
      answer sys.store q = some s' → Served sys.store ws s' →
      Moves sys (.request q) { sys with store := s' }
  | watch {batch : List GlobalCreate} {s' : StoreState} :
      Quiet sys.store s' → Moves sys (.watch batch) { sys with store := s' }
  | cancelWatch {watchId : Int64} {s' : StoreState} :
      Quiet sys.store s' → Moves sys (.cancelWatch watchId) { sys with store := s' }
  | compactA : sys.compaction = none →
      Moves sys .compactA { sys with compaction := some sys.store.compactPhaseA }
  | compactB {c c' : Compaction} : sys.compaction = some c → c'.target = c.target →
      c'.walSize = c.walSize → Moves sys .compactB { sys with compaction := some c' }
  | compactC {c : Compaction} : sys.compaction = some c →
      Moves sys .compactC
        { store := sys.store.compactPhaseC c.target c.walSize, compaction := none }
  | compactFails : Moves sys .compactFails { sys with compaction := none }
  | restart {now : Nat} {s' : StoreState} : openStore now sys.store.wal.contents = .ok s' →
      Moves sys (.restart now) { store := s', compaction := none }

/-- The one place where `System.step` is taken apart. -/
theorem moves_of_step {sys sys' : System} {ev : Event} (hs : sys.store.wal.faults = [])
    (h : sys.step ev = some sys') : Moves sys ev sys' := by
  cases ev with
  | request q =>
      obtain ⟨s', hq, rfl⟩ := Option.map_eq_some_iff.mp h
      obtain ⟨ws, hws⟩ := answer_served hs hq
      exact .request hq hws
  | watch batch =>
      cases h
      exact .watch (quiet_flushGlobalBatch _ _)
  | cancelWatch watchId =>
      cases h
      exact .cancelWatch (quiet_cancelWatcher _ _)
  | compactA =>
      simp only [step] at h
      split at h
      · next hc =>
          cases h
          exact .compactA hc
      · cases h
  | compactB =>
      simp only [step] at h
      split at h
      · next records walSize hc =>
          cases h
          exact .compactB hc rfl rfl
      · cases h
  | compactC =>
      simp only [step] at h
      split at h
      · next target walSize hc =>
          cases h
          exact .compactC hc
      · cases h
  | compactFails =>
      cases h
      exact .compactFails
  | restart now =>
      simp only [step, boot, Option.map_eq_some_iff] at h
      obtain ⟨s', hs', rfl⟩ := h
      exact .restart (Prog.ok_of_toOption hs')

/-- Every record the event writes fits its format, in the WAL or in a snapshot. -/
def StepFits (sys : System) : Event → Prop
  | .request q => ∀ s' ∈ answer sys.store q, ∀ rec ∈ s'.wal.log, rec.Fits
  | .compactA => ∀ rec ∈ sys.store.snapshotRecords, rec.Fits
  | _ => True

instance (sys : System) (ev : Event) : Decidable (sys.StepFits ev) :=
  match ev with
  | .request q => inferInstanceAs (Decidable (∀ s' ∈ answer sys.store q, _))
  | .compactA => inferInstanceAs (Decidable (∀ rec ∈ sys.store.snapshotRecords, _))
  | .watch _ | .cancelWatch _ | .compactB | .compactC | .compactFails | .restart _ =>
      .isTrue trivial

/-- The revision counter is neither exhausted nor wrapped when a request comes in. -/
def StepCounts (sys : System) : Event → Prop
  | .request _ => sys.store.nextRev ≠ 0 ∧ sys.store.nextRev.toNat + 1 < 2 ^ 64
  | _ => True

instance (sys : System) (ev : Event) : Decidable (sys.StepCounts ev) :=
  match ev with
  | .request _ => inferInstanceAs (Decidable (_ ∧ _))
  | .watch _ | .cancelWatch _ | .compactA | .compactB | .compactC | .compactFails | .restart _ =>
      .isTrue trivial

end System

end Rudurru
