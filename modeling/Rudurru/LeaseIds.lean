import Rudurru.Overflow

/-!
# Rudurru.LeaseIds

Where lease ids come from: a client names one, or leaves the choice to the server, which takes the
next value of a counter. A restart sets the counter past the ids it finds on keys; between restarts
nothing moves it but the grants it serves, and nobody compares it with the ids that clients name.

So a server's choice is fresh exactly if the counter does not stand at such an id
(`server_lease_ids_fresh`).

A registry is kept beside the server, of who has named which id since the process started.
`Accounted` says that each lease is either named there or has an id that the counter gave out, which
is as far behind the counter as the choices that the server has made at most. A choice of the server
can then clash with a named id only, and the statement says with which.
-/

namespace Rudurru

open Std (ExtTreeMap)
open Prog (exec)

section

variable [Crates]

/-! ### Requests that grant nothing -/

/-- No lease is there that was not, and the counter of ids has not moved. -/
structure Ungranted (s s' : StoreState) : Prop where
  leases : ∀ id, s'.leases.contains id = true → s.leases.contains id = true
  nextLeaseId : s'.nextLeaseId = s.nextLeaseId

omit [Crates] in
theorem Ungranted.refl (s : StoreState) : Ungranted s s := ⟨fun _ h => h, rfl⟩

omit [Crates] in
theorem Ungranted.untouched {s s' s'' : StoreState} (h : Ungranted s s')
    (hs : Untouched s' s'') : Ungranted s s'' where
  leases := by
    intro id hid
    rw [hs.leases] at hid
    exact h.leases id hid
  nextLeaseId := hs.nextLeaseId.trans h.nextLeaseId

theorem putAt_ungranted {s₀ : StoreState} (p : PutRequest) (rev : UInt64) {s : StoreState}
    (h : Ungranted s₀ s) : (putAt p rev).Spec s fun _ s' => Ungranted s₀ s' :=
  ((untouched_putAt p rev).spec s).mono fun _ _ hs => h.untouched hs

theorem deleteRangeAt_ungranted {s₀ : StoreState} (d : DeleteRangeRequest) (rev : UInt64)
    {s : StoreState} (h : Ungranted s₀ s) :
    (deleteRangeAt d rev).Spec s fun _ s' => Ungranted s₀ s' :=
  ((untouched_deleteRangeAt d rev).spec s).mono fun _ _ hs => h.untouched hs

omit [Crates] in
theorem Ungranted.taken {s₀ s : StoreState} (h : Ungranted s₀ s) :
    Ungranted s₀ { s with nextRev := s.nextRev + 1 } := ⟨h.leases, h.nextLeaseId⟩

theorem ungranted_invariant (s₀ : StoreState) :
    TxnInvariant (fun _ s => Ungranted s₀ s) (Ungranted s₀) :=
  .of_store Ungranted.taken putAt_ungranted deleteRangeAt_ungranted

/-- Deleting the keys of a lease that has been removed grants none. -/
theorem deleteKeysForLease_ungranted (id : Int64) (s : StoreState) :
    (deleteKeysForLease id).Spec { s with leases := s.leases.erase id }
      fun _ s' => Ungranted s s' := by
  have herased : Ungranted s { s with leases := s.leases.erase id } := by
    refine ⟨fun id' hid => ?_, rfl⟩
    rw [ExtTreeMap.contains_erase, Bool.and_eq_true] at hid
    exact hid.2
  refine deleteKeysForLease_rule id (fun _ => herased) ?_
  intro keys e _ _
  refine ((untouched_deleteBatch _ keys _ e).spec _).mono ?_
  exact fun _ _ hs => herased.taken.untouched hs

omit [Crates] in
/-- A keep-alive writes back a lease that was there. -/
theorem leaseKeepAlive_ungranted (now : Nat) (id : Int64) (s : StoreState) :
    (leaseKeepAlive now id).Spec s fun _ s' => Ungranted s s' := by
  refine leaseKeepAlive_rule now id (.refl s) ?_
  intro ls hls
  refine ⟨fun id' hid => ?_, rfl⟩
  rw [ExtTreeMap.contains_insert, Bool.or_eq_true] at hid
  rcases hid with hid | hid
  · obtain rfl : id = id' := by simpa using hid
    rw [ExtTreeMap.contains_eq_isSome_getElem?, hls]
    rfl
  · exact hid

/-! ### Grants -/

/-- What a grant does: nothing, or there is a lease with the id that was asked for, or with the
value of the counter, which moves on, also when the lease is refused. -/
inductive Granted (id : Int64) (s s' : StoreState) : Prop
  | refused (h : Ungranted s s')
  | supplied (hid : id ≠ 0) (hnext : s'.nextLeaseId = s.nextLeaseId)
      (hleases : ∀ id', s'.leases.contains id' = true → s.leases.contains id' = true ∨ id' = id)
  | taken (hid : id = 0) (hnext : s'.nextLeaseId = s.nextLeaseId + 1)
      (hleases : ∀ id', s'.leases.contains id' = true →
        s.leases.contains id' = true ∨ id' = s.nextLeaseId)

omit [Crates] in
/-- Granting the lease `id`: it may be there afterwards, and no other that was not. -/
theorem grantLease_spec (now : Nat) (ttl id : Int64) (s : StoreState) :
    (grantLease now ttl id).Spec s fun _ s' => s'.nextLeaseId = s.nextLeaseId ∧
      ∀ id', s'.leases.contains id' = true → s.leases.contains id' = true ∨ id' = id := by
  refine grantLease_rule now ttl id ⟨rfl, fun _ h => .inl h⟩ ⟨rfl, fun id' hid => ?_⟩
  rw [ExtTreeMap.contains_insert, Bool.or_eq_true] at hid
  rcases hid with hid | hid
  · exact .inr (by simpa using hid : id = id').symm
  · exact .inl hid

omit [Crates] in
theorem leaseGrant_granted (now : Nat) (id ttl : Int64) (s : StoreState) :
    (leaseGrant now id ttl).Spec s fun _ s' => Granted id s s' := by
  refine leaseGrant_rule now id ttl (.refused (.refl s)) ?_ ?_
  · intro hid t _
    exact (grantLease_spec now t id s).mono fun _ _ hr => .supplied hid hr.1 hr.2
  · intro hid t _
    exact (grantLease_spec now t _ _).mono fun _ _ hr => .taken hid hr.1 hr.2

theorem handle_ungranted {q : Request} (hq : ∀ now id ttl, q ≠ .leaseGrant now id ttl)
    (s : StoreState) : (handle q).Spec s fun _ s' => Ungranted s s' := by
  cases q with
  | range req =>
      exact StoreM.spec_read_bind (fun _ _ => .refl s) fun _ _ => Prog.spec_pure (.refl s)
  | put req =>
      exact StoreM.spec_wrap
        (put_rule req (.refl s) (putAt_ungranted req _ (Ungranted.refl s).taken))
  | deleteRange req =>
      exact StoreM.spec_wrap
        (deleteRange_rule req (.refl s) (deleteRangeAt_ungranted req _ (Ungranted.refl s).taken))
  | txn req => exact StoreM.spec_wrap ((ungranted_invariant s).txn_spec req (.refl s))
  | compact revision =>
      exact StoreM.spec_wrap
        (compact_rule revision (fun _ => .refl s) fun _ _ _ => ⟨fun _ h => h, rfl⟩)
  | leaseGrant now id ttl => exact absurd rfl (hq now id ttl)
  | leaseRevoke id =>
      exact StoreM.spec_wrap
        (leaseRevoke_rule id (fun _ => .refl s) fun _ => deleteKeysForLease_ungranted id s)
  | leaseKeepAlive now id => exact StoreM.spec_wrap (leaseKeepAlive_ungranted now id s)
  | leaseExpire now id =>
      exact StoreM.spec_wrap
        (leaseExpire_rule now id (fun _ => .refl s) fun _ _ _ => deleteKeysForLease_ungranted id s)

/-- Does the event ask for a lease? -/
def Event.isGrant : Event → Bool
  | .request (.leaseGrant _ _ _) => true
  | _ => false

/-- Only grants and restarts make leases. -/
theorem ungranted_step {sys sys' : System} {ev : Event} (hgrant : ev.isGrant = false)
    (hrestart : ev.isRestart = false) (hstep : sys.step ev = some sys') :
    Ungranted sys.store sys'.store := by
  cases ev with
  | request q =>
      obtain ⟨s', hq, rfl⟩ := Option.map_eq_some_iff.mp hstep
      refine answer_spec (handle_ungranted ?_ sys.store) hq
      intro now id ttl heq
      rw [heq] at hgrant
      cases hgrant
  | watch batch =>
      cases hstep
      exact (Ungranted.refl _).untouched (untouched_flushGlobalBatch sys.store batch)
  | cancelWatch watchId =>
      cases hstep
      exact ⟨fun _ h => h, rfl⟩
  | compactA | compactB | compactC =>
      simp only [System.step] at hstep
      split at hstep
      · cases hstep
        exact ⟨fun _ h => h, rfl⟩
      · cases hstep
  | compactFails =>
      cases hstep
      exact .refl _
  | restart now => cases hrestart

/-! ### Whose id is it -/

/-- A server, with what became known about lease ids since its process started: how often a client
left the choice to the server, and the ids of leases, still there, that it did not choose. -/
structure Registry where
  sys : System
  asked : Nat
  named : List Int64

/-- The process starts: all leases are as the restart found them. -/
def Registry.start (sys : System) : Registry := { sys, asked := 0, named := sys.store.leases.keys }

/-- The ids of leases that an event, which leads to `sys'`, brings with it. -/
def Event.named (sys' : System) : Event → List Int64
  | .restart _ => sys'.store.leases.keys
  | ev => ev.suppliedId.toList

/-- The step of the server, with the bookkeeping. -/
def Registry.step (reg : Registry) (ev : Event) : Option Registry :=
  (reg.sys.step ev).map fun sys =>
    { sys
      asked := if ev.isRestart then 0 else reg.asked + ev.grants
      named := (ev.named sys ++ reg.named).filter sys.store.leases.contains }

/-- Every lease has an id that somebody named, or one that the counter had not long ago. `j` counts
back from the counter. -/
structure Registry.Accounted (reg : Registry) : Prop where
  live : ∀ id ∈ reg.named, reg.sys.store.leases.contains id = true
  covered : ∀ id, reg.sys.store.leases.contains id = true →
    id ∈ reg.named ∨ ∃ j < reg.asked, id + Int64.ofNat (j + 1) = reg.sys.store.nextLeaseId

omit [Crates] in
theorem accounted_fresh (sys : System) : (Registry.start sys).Accounted where
  live := fun _ hid => ExtTreeMap.mem_keys.mp hid
  covered := fun _ hid => .inl (ExtTreeMap.mem_keys.mpr hid)

omit [Crates] in
/-- A lease that is kept is accounted for as before, while the counter makes `k` steps. -/
theorem Registry.Accounted.kept {reg : Registry} (h : reg.Accounted) {sys : System}
    {ids : List Int64} {k n : Nat} (hn : reg.asked + k ≤ n)
    (hnext : sys.store.nextLeaseId = reg.sys.store.nextLeaseId + Int64.ofNat k) {id : Int64}
    (hold : reg.sys.store.leases.contains id = true) (hid : sys.store.leases.contains id = true) :
    id ∈ (ids ++ reg.named).filter sys.store.leases.contains ∨
      ∃ j < n, id + Int64.ofNat (j + 1) = sys.store.nextLeaseId := by
  rcases h.covered id hold with hnamed | hcounted
  · exact .inl (List.mem_filter.mpr ⟨List.mem_append_right _ hnamed, hid⟩)
  · obtain ⟨j, hj, hj'⟩ := hcounted
    refine .inr ⟨j + k, by omega, ?_⟩
    rw [hnext, ← hj', Int64.add_assoc, ← Int64.ofNat_add]
    congr 2
    omega

omit [Crates] in
theorem Registry.Accounted.ungranted {reg : Registry} (h : reg.Accounted) {sys : System}
    (hs : Ungranted reg.sys.store sys.store) {ids : List Int64} {n : Nat} (hn : reg.asked ≤ n)
    {id : Int64} (hid : sys.store.leases.contains id = true) :
    id ∈ (ids ++ reg.named).filter sys.store.leases.contains ∨
      ∃ j < n, id + Int64.ofNat (j + 1) = sys.store.nextLeaseId :=
  h.kept hn (hs.nextLeaseId.trans (Int64.add_zero _).symm) (hs.leases id hid) hid

theorem Registry.Accounted.step {reg reg' : Registry} {ev : Event} (h : reg.Accounted)
    (hstep : reg.step ev = some reg') : reg'.Accounted := by
  obtain ⟨sys, hsys, rfl⟩ := Option.map_eq_some_iff.mp hstep
  refine ⟨fun id hid => (List.mem_filter.mp hid).2, fun id hid => ?_⟩
  by_cases hrestart : ev.isRestart = true
  · -- everything that a restart finds is named
    cases ev with
    | restart now =>
        refine .inl (List.mem_filter.mpr ⟨List.mem_append_left _ ?_, hid⟩)
        exact ExtTreeMap.mem_keys.mpr hid
    | request q | watch batch | cancelWatch watchId | compactA | compactB | compactC
      | compactFails => cases hrestart
  have hrestart : ev.isRestart = false := Bool.eq_false_iff.mpr hrestart
  simp only [hrestart, Bool.false_eq_true, if_false]
  by_cases hgrant : ev.isGrant = true
  · cases ev with
    | request q =>
        cases q with
        | leaseGrant now id' ttl =>
            obtain ⟨s', hq, rfl⟩ := Option.map_eq_some_iff.mp hsys
            have hspec : (handle (.leaseGrant now id' ttl)).Spec reg.sys.store fun _ s' =>
                Granted id' reg.sys.store s' :=
              StoreM.spec_wrap (leaseGrant_granted now id' ttl _)
            -- a grant is refused, brings its own ID, or takes the next of the counter
            cases answer_spec hspec hq with
            | refused hs => exact h.ungranted hs (Nat.le_add_right _ _) hid
            | supplied hne hnext hleases =>
                rcases hleases id hid with hold | rfl
                · exact h.kept (Nat.le_add_right _ _)
                    (hnext.trans (Int64.add_zero _).symm) hold hid
                · refine .inl (List.mem_filter.mpr ⟨List.mem_append_left _ ?_, hid⟩)
                  simp [Event.named, Event.suppliedId, hne]
            | taken hzero hnext hleases =>
                have hasked : (Event.request (.leaseGrant now id' ttl)).grants = 1 := if_pos hzero
                rw [hasked]
                rcases hleases id hid with hold | rfl
                · exact h.kept (Nat.le_refl _) hnext hold hid
                · exact .inr ⟨0, Nat.succ_pos _, hnext.symm⟩
        | range req | put req | deleteRange req | txn req | compact revision | leaseRevoke id
          | leaseKeepAlive now id | leaseExpire now id => cases hgrant
    | watch batch | cancelWatch watchId | compactA | compactB | compactC | compactFails
      | restart now => cases hgrant
  · -- no other event adds a lease
    have hs := ungranted_step (Bool.eq_false_iff.mpr hgrant) hrestart hsys
    exact h.ungranted hs (Nat.le_add_right _ _) hid

/-! ### Server-chosen ids -/

/-- A grant that leaves the choice of the id to the server returns one, not zero, that no lease
had. -/
def FreshGrant (s : StoreState) (now : Nat) (ttl : Int64) : Prop :=
  ∃ resp s', exec (leaseGrant now 0 ttl) s = (.ok resp, s') ∧ resp.id ≠ 0 ∧
    s.leases.contains resp.id = false

/-- The answer to a grant of a lease that exists. -/
def leaseExists : Failure := .status .failedPrecondition "etcdserver: lease already exists"

omit [Crates] in
theorem exec_leaseGrant_zero (s : StoreState) (now : Nat) {ttl t : Int64}
    (ht : checkLeaseTtl ttl = .ok t) :
    exec (leaseGrant now 0 ttl) s
      = exec (grantLease now t s.nextLeaseId) { s with nextLeaseId := s.nextLeaseId + 1 } := by
  rw [leaseGrant_eq]
  simp [Prog.exec_bind, StoreM.read, ht, allocLeaseId]

omit [Crates] in
/-- A lease that exists is refused. -/
theorem exec_grantLease_exists {s : StoreState} {id : Int64} (h : s.leases.contains id = true)
    (now : Nat) (ttl : Int64) : exec (grantLease now ttl id) s = (.error leaseExists, s) := by
  unfold grantLease
  rw [Prog.exec_bind, Prog.exec_get]
  simp only [h, if_true]
  rfl

omit [Crates] in
theorem exec_grantLease_new {s : StoreState} {id : Int64} (h : s.leases.contains id = false)
    (now : Nat) (ttl : Int64) :
    ∃ s', exec (grantLease now ttl id) s = (.ok { header := s'.header, id, ttl }, s') := by
  unfold grantLease
  rw [Prog.exec_bind, Prog.exec_get]
  simp only [h, Bool.false_eq_true, if_false]
  exact ⟨_, rfl⟩

omit [Crates] in
theorem freshGrant_iff (s : StoreState) (now : Nat) {ttl : Int64} (httl : ttl ≤ leaseMaxTtl) :
    FreshGrant s now ttl ↔
      s.nextLeaseId ≠ 0 ∧ s.leases.contains s.nextLeaseId = false := by
  have ht : checkLeaseTtl ttl = .ok (if ttl < leaseMinTtl then leaseMinTtl else ttl) :=
    if_neg (Int64.not_lt.mpr httl)
  unfold FreshGrant
  rw [exec_leaseGrant_zero s now ht]
  cases hid : s.leases.contains s.nextLeaseId with
  | true =>
      rw [exec_grantLease_exists (s := { s with nextLeaseId := s.nextLeaseId + 1 }) hid]
      refine iff_of_false ?_ (by simp)
      intro h
      obtain ⟨resp, s', hexec, -⟩ := h
      cases hexec
  | false =>
      obtain ⟨s', hexec⟩ := exec_grantLease_new
        (s := { s with nextLeaseId := s.nextLeaseId + 1 }) hid now
        (if ttl < leaseMinTtl then leaseMinTtl else ttl)
      rw [hexec]
      constructor
      · intro h
        obtain ⟨resp, s'', heq, hne, -⟩ := h
        cases heq
        exact ⟨hne, rfl⟩
      · intro h
        exact ⟨_, s', rfl, h.1, hid⟩

omit [Crates] in
/-- An id that the counter had less than `2 ^ 64` steps ago is not the one it has. -/
theorem add_ofNat_ne {n : Nat} (hpos : 0 < n) (hn : n < 2 ^ 64) (id : Int64) :
    id + Int64.ofNat n ≠ id := by
  intro h
  have hzero : Int64.ofNat n = 0 := Int64.add_eq_left.mp h
  have hbits : BitVec.ofNat 64 n = 0#64 := congrArg Int64.toBitVec hzero
  have hnat := congrArg BitVec.toNat hbits
  rw [BitVec.toNat_ofNat, Nat.mod_eq_of_lt hn] at hnat
  exact hpos.ne' hnat

/-- **Whose ids clash.** At any time, the server's choice of a lease id is fresh exactly if the
counter has not come round to zero and does not stand at the id of a lease that a client named or
that the last restart found: as long as the process has not been asked for `2 ^ 64` ids. -/
theorem server_lease_ids_fresh {sys : System} {evs : List Event} {reg : Registry}
    (hrun : Trace.run Registry.step (.start sys) evs = some reg) (hasked : reg.asked < 2 ^ 64)
    (now : Nat) {ttl : Int64} (httl : ttl ≤ leaseMaxTtl) :
    FreshGrant reg.sys.store now ttl ↔
      reg.sys.store.nextLeaseId ≠ 0 ∧ reg.sys.store.nextLeaseId ∉ reg.named := by
  have haccounted : reg.Accounted :=
    Trace.invariant_of_step (fun _ _ _ h hstep => h.step hstep) (accounted_fresh sys) hrun
  rw [freshGrant_iff _ now httl]
  refine and_congr_right fun _ => ?_
  constructor
  · intro hfree hnamed
    rw [haccounted.live _ hnamed] at hfree
    cases hfree
  · intro hnamed
    by_contra hlive
    -- a live id has a name, or the counter gave it out, and has not come round to it again
    rcases haccounted.covered _ (by simpa using hlive) with hmem | ⟨j, hj, hnext⟩
    · exact hnamed hmem
    · exact add_ofNat_ne (Nat.succ_pos j) (Nat.lt_of_le_of_lt hj hasked) _ hnext

end

/-- A client names 7 and leaves two choices to the server, which counts on. -/
theorem server_lease_ids_fresh_counting :
    ∃ reg, Trace.run Registry.step (.start ⟨fresh, none⟩) [.request (.leaseGrant 0 7 60),
        .request (.leaseGrant 0 0 60), .request (.leaseRevoke 7)] = some reg ∧
      reg.sys.store.nextLeaseId = 2 ∧ FreshGrant reg.sys.store 0 60 := by
  have hrun : (Trace.run Registry.step (.start ⟨fresh, none⟩) [.request (.leaseGrant 0 7 60),
      .request (.leaseGrant 0 0 60), .request (.leaseRevoke 7)]).any (fun reg =>
        decide (reg.sys.store.nextLeaseId = 2) && decide (reg.asked = 1) &&
          decide (reg.named = [])) = true := by
    decide +kernel
  obtain ⟨reg, hreg, hfacts⟩ := (Option.any_eq_true _ _).mp hrun
  simp only [Bool.and_eq_true, decide_eq_true_eq] at hfacts
  obtain ⟨⟨hnext, hasked⟩, hnamed⟩ := hfacts
  refine ⟨reg, hreg, hnext, ?_⟩
  refine (server_lease_ids_fresh hreg (by rw [hasked]; decide) 0 (by decide)).mpr ⟨?_, ?_⟩
  · rw [hnext]
    decide
  · rw [hnamed]
    exact List.not_mem_nil

/-- A client names 1, which is what the counter stands at: the server's choice exists. -/
theorem server_lease_id_exists :
    ∃ sys, System.run ⟨fresh, none⟩ [.request (.leaseGrant 0 1 60)] = some sys ∧
      (exec (leaseGrant 0 0 60) sys.store).1 = .error leaseExists ∧
      ¬ FreshGrant sys.store 0 60 := by
  have hrun : (System.run ⟨fresh, none⟩ [.request (.leaseGrant 0 1 60)]).any (fun sys =>
      decide (sys.store.nextLeaseId = 1) && sys.store.leases.contains 1) = true := by
    decide +kernel
  obtain ⟨sys, hsys, hfacts⟩ := (Option.any_eq_true _ _).mp hrun
  simp only [Bool.and_eq_true, decide_eq_true_eq] at hfacts
  obtain ⟨hnext, hlive⟩ := hfacts
  have ht : checkLeaseTtl 60 = .ok 60 := by rfl
  have hexec : (exec (leaseGrant 0 0 60) sys.store).1 = .error leaseExists := by
    rw [exec_leaseGrant_zero sys.store 0 ht]
    exact congrArg Prod.fst (exec_grantLease_exists (by rw [hnext]; exact hlive) 0 60)
  refine ⟨sys, hsys, hexec, ?_⟩
  intro h
  obtain ⟨resp, s', hok, -⟩ := h
  rw [hok] at hexec
  cases hexec

end Rudurru
