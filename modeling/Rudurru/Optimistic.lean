import Rudurru.Representation
import Rudurru.Txn.Trace

/-!
# Rudurru.Optimistic

What a client may conclude from a `mod_revision`. Later writes have higher revisions, so a key that
is found again with the same `mod_revision` has not been touched in between
(`same_revision_same_entry`). Of the transactions that are guarded by the `mod_revision` of a key
and write the key, one succeeds at most (`guarded_txn_once`).

Both need the writes of a run to have increasing revisions. A restart keeps that up as long as it
finds every write in the WAL: no restart may come after a swap of the file.

`Chronicle` keeps the list of all writes that made the keyspace, across restarts: a restart replays
the records, and while the file has not been swapped these are the writes. Their revisions do not
decrease, and those of two requests differ. An entry is determined by the last write to its key
(`Made`), so two states in which a key has the same `mod_revision` have the same write behind it. A
guarded transaction that succeeds writes its key at a new revision, after which no guard for the old
one holds again.
-/

namespace Rudurru

open Std (ExtTreeMap)
open Prog (exec)

/-- No restart comes after a swap of the WAL file. -/
def RestartsFirst (evs : List Event) : Prop :=
  evs.Pairwise fun ev ev' => ev.isSwap = true → ev'.isRestart = false

instance (evs : List Event) : Decidable (RestartsFirst evs) :=
  inferInstanceAs (Decidable (List.Pairwise _ _))

/-- Everything in `vs` was written after everything in `ws`. -/
def Later (ws vs : List Write) : Prop := ∀ w ∈ ws, ∀ v ∈ vs, w.rev.toNat < v.rev.toNat

theorem Later.nil (ws : List Write) : Later ws [] := by
  intro w _ v hv
  cases hv

theorem Later.append {ws vs us : List Write} (h : Later ws vs) (h' : Later (ws ++ vs) us) :
    Later ws (vs ++ us) := by
  intro w hw v hv
  rcases List.mem_append.mp hv with hv | hv
  · exact h w hw v hv
  · exact h' w (List.mem_append_left _ hw) v hv

namespace Keyspace

/-- A stamped key is alive with the revision of its stamp only. -/
theorem Stamped.modRevision {K : Keyspace} {rev : UInt64} {key : Bytes} (h : K.Stamped rev key)
    (hpos : rev ≠ 0) {ks : KeyState} (hks : aliveIn K.keys key = some ks) :
    ks.modRevision = rev := by
  obtain ⟨hget, halive⟩ := aliveIn_eq_some.mp hks
  obtain ⟨ks', hget', hstamp⟩ := h
  obtain rfl : ks = ks' := Option.some.inj (hget.symm.trans hget')
  rcases hstamp with ⟨-, hmod⟩ | hdelete
  · exact hmod
  · exact absurd (hdelete.symm.trans (of_decide_eq_true halive)) hpos

end Keyspace

/-! ### The writes of a run -/

/-- `ws` made the keyspace, at revisions below the counter. -/
structure Made (ws : List Write) (sys : System) : Prop where
  faults : sys.store.wal.faults = []
  nextRev_pos : 0 < sys.store.nextRev.toNat
  run : Keyspace.Run .empty ws sys.store.keyspace
  below : ∀ w ∈ ws, w.rev.toNat < sys.store.nextRev.toNat

section

variable [Crates]

theorem Logged.made {ws : List Write} {sys : System} (h : Logged ws sys) : Made ws sys :=
  ⟨h.faults, h.nextRev_pos, h.run, fun w hw => (h.below w hw).2⟩

theorem Made.served {ws vs : List Write} {sys : System} {s' : StoreState} (h : Made ws sys)
    (hserved : Served sys.store vs s') (hcount : sys.store.nextRev.toNat + 1 < 2 ^ 64) :
    Made (ws ++ vs) { sys with store := s' } := by
  obtain ⟨hle, -, hrev⟩ := hserved.toNat_nextRev hcount
  refine ⟨hserved.faults, Nat.lt_of_lt_of_le h.nextRev_pos hle, h.run.append hserved.run, ?_⟩
  intro w hw
  rcases List.mem_append.mp hw with hw | hw
  · exact Nat.lt_of_lt_of_le (h.below w hw) hle
  · obtain ⟨hwr, hnext⟩ := hrev w hw
    show w.rev.toNat < s'.nextRev.toNat
    rw [hwr, hnext]
    exact Nat.lt_succ_self _

/-- The writes of a request are the latest. -/
theorem Made.later {ws vs : List Write} {sys : System} {s' : StoreState} (h : Made ws sys)
    (hserved : Served sys.store vs s') : Later ws vs := by
  intro w hw v hv
  rw [hserved.rev_eq v hv]
  exact h.below w hw

omit [Crates] in
theorem Made.quiet {ws : List Write} {sys : System} (h : Made ws sys) {s' : StoreState}
    (hq : Quiet sys.store s') (c : Option Compaction) : Made ws ⟨s', c⟩ where
  faults := by rw [hq.wal, h.faults]
  nextRev_pos := by rw [hq.nextRev]; exact h.nextRev_pos
  run := by rw [hq.keyspace]; exact h.run
  below := by rw [hq.nextRev]; exact h.below

/-- The writes of a run, which are all in the WAL until it is swapped. -/
inductive Chronicle (ws : List Write) (sys : System) : Bool → Prop
  | logged : Logged ws sys → Chronicle ws sys false
  | swapped : Made ws sys → Chronicle ws sys true

theorem Chronicle.made {ws : List Write} {sys : System} {b : Bool} :
    Chronicle ws sys b → Made ws sys
  | .logged h => h.made
  | .swapped h => h

theorem Chronicle.quiet {ws : List Write} {sys : System} {b : Bool} {s' : StoreState}
    (hq : Quiet sys.store s') (c : Option Compaction) :
    Chronicle ws sys b → Chronicle (ws ++ []) ⟨s', c⟩ b
  | .logged h => by
      rw [List.append_nil]
      exact .logged (h.quiet hq c)
  | .swapped h => by
      rw [List.append_nil]
      exact .swapped (h.quiet hq c)

variable [LawfulCrates]

/-- **One event** adds later writes. As long as the file is whole a restart finds the same writes; a
swap ends this, and from then on restarts are excluded. -/
theorem Chronicle.step {ws : List Write} {sys sys' : System} {b : Bool} {ev : Event}
    (h : Chronicle ws sys b) (hok : sys.StepOk ev) (hev : b = true → ev.isRestart = false)
    (hstep : sys.step ev = some sys') :
    ∃ vs, Chronicle (ws ++ vs) sys' (b || ev.isSwap) ∧ Later ws vs := by
  have hsame {s' : StoreState} {c : Option Compaction} (hq : Quiet sys.store s') :
      ∃ vs, Chronicle (ws ++ vs) ⟨s', c⟩ (b || false) ∧ Later ws vs := by
    rw [Bool.or_false]
    exact ⟨[], h.quiet hq c, .nil ws⟩
  cases System.moves_of_step h.made.faults hstep with
  | @request q vs s' hq hserved =>
      refine ⟨vs, ?_, h.made.later hserved⟩
      rw [show Event.isSwap (.request q) = false from rfl, Bool.or_false]
      cases h with
      | logged h =>
          refine .logged (h.served hserved (fun w hw => ?_) hok.2.2)
          refine hok.1 s' hq _ ?_
          rw [hserved.log]
          exact List.mem_append_right _ (List.mem_map_of_mem hw)
      | swapped h => exact .swapped (h.served hserved hok.2.2)
  | watch hquiet => exact hsame hquiet
  | cancelWatch hquiet => exact hsame hquiet
  | compactA | compactB | compactFails => exact hsame (.refl _)
  | compactC =>
      rw [show Event.isSwap .compactC = true from rfl, Bool.or_true]
      refine ⟨[], ?_, .nil ws⟩
      rw [List.append_nil]
      exact .swapped ⟨h.made.faults, h.made.nextRev_pos, h.made.run, h.made.below⟩
  | restart hopen =>
      cases h with
      | logged h =>
          refine ⟨[], ?_, .nil ws⟩
          rw [List.append_nil]
          exact .logged (h.restart hopen)
      | swapped h => cases hev rfl

/-- **A run** adds later writes. -/
theorem Chronicle.run {ws : List Write} {sys sys' : System} {b : Bool} {evs : List Event}
    (h : Chronicle ws sys b) (hrun : System.run sys evs = some sys')
    (hok : Trace.Along System.step System.StepOk sys evs) (hevs : RestartsFirst evs)
    (hb : b = true → ∀ ev ∈ evs, ev.isRestart = false) :
    ∃ vs, Chronicle (ws ++ vs) sys' (b || evs.any Event.isSwap) ∧ Later ws vs := by
  induction evs generalizing ws sys b with
  | nil =>
      cases hrun
      refine ⟨[], ?_, .nil ws⟩
      rw [List.append_nil, List.any_nil, Bool.or_false]
      exact h
  | cons ev evs ih =>
      rw [System.run, Trace.run_cons, Option.bind_eq_some_iff] at hrun
      obtain ⟨sys₁, hstep, hrest⟩ := hrun
      obtain ⟨hfirst, hevs⟩ := List.pairwise_cons.mp hevs
      obtain ⟨vs, h₁, hlater⟩ := h.step hok.1 (fun hb' => hb hb' ev (by simp)) hstep
      have hrestarts : (b || ev.isSwap) = true → ∀ ev' ∈ evs, ev'.isRestart = false := by
        intro hswap ev' hev'
        rcases (Bool.or_eq_true _ _).mp hswap with hb' | hev
        · exact hb hb' ev' (List.mem_cons_of_mem _ hev')
        · exact hfirst ev' hev' hev
      obtain ⟨us, h₂, hlater'⟩ := ih h₁ hrest (hok.2 sys₁ hstep) hevs hrestarts
      refine ⟨vs ++ us, ?_, hlater.append hlater'⟩
      rw [← List.append_assoc, List.any_cons, ← Bool.or_assoc]
      exact h₂

/-- The chronicle part of the way through a run, and what the rest of the run meets. -/
theorem Chronicle.split {ws : List Write} {sys sys' : System} {b : Bool} {evs evs' : List Event}
    (h : Chronicle ws sys b) (hrun : System.run sys evs = some sys')
    (hok : Trace.Along System.step System.StepOk sys (evs ++ evs'))
    (hevs : RestartsFirst (evs ++ evs'))
    (hb : b = true → ∀ ev ∈ evs ++ evs', ev.isRestart = false) :
    ∃ vs b', Chronicle (ws ++ vs) sys' b' ∧ Later ws vs ∧
      Trace.Along System.step System.StepOk sys' evs' ∧ RestartsFirst evs' ∧
      (b' = true → ∀ ev ∈ evs', ev.isRestart = false) := by
  obtain ⟨hevs, hevs', hacross⟩ := List.pairwise_append.mp hevs
  obtain ⟨hok, hok'⟩ := Trace.along_append.mp hok
  obtain ⟨vs, h', hlater⟩ := h.run hrun hok hevs fun hb' ev hev =>
    hb hb' ev (List.mem_append_left _ hev)
  refine ⟨vs, _, h', hlater, hok' sys' hrun, hevs', ?_⟩
  intro hswap ev' hev'
  rcases (Bool.or_eq_true _ _).mp hswap with hb' | hany
  · exact hb hb' ev' (List.mem_append_right _ hev')
  · obtain ⟨ev, hev, hswap⟩ := List.any_eq_true.mp hany
    exact hacross ev hev ev' hev' hswap

/-! ### One entry for a revision -/

omit [LawfulCrates] [Crates] in
/-- An alive key was written by a write of the run, which gave it its revision. -/
theorem Made.alive {ws : List Write} {sys : System} (h : Made ws sys) {key : Bytes} {ks : KeyState}
    (hks : sys.store.alive? key = some ks) : ∃ w ∈ ws, w.rev = ks.modRevision :=
  (AliveRevisions.empty fun r => ∃ w ∈ ws, w.rev = r).run h.run (fun w hw => ⟨w, hw, rfl⟩)
    key ks hks

end

section

variable [Crates]

/-- The compare asks for a `mod_revision` of a key. -/
def Compare.Guards (cmp : Compare) (key : Bytes) (r : Int64) : Prop :=
  cmp.key = key ∧ targetFromI32 cmp.target = .mod ∧ resultFromI32 cmp.result = .equal ∧
    cmp.targetUnion = some (.modRevision r)

instance (cmp : Compare) (key : Bytes) (r : Int64) : Decidable (cmp.Guards key r) :=
  inferInstanceAs (Decidable (_ ∧ _))

/-- The transaction goes ahead only if the key was last modified at a revision. -/
def TxnRequest.Guards (req : TxnRequest) (key : Bytes) (r : Int64) : Prop :=
  ∃ cmp ∈ req.compare, cmp.Guards key r

instance (req : TxnRequest) (key : Bytes) (r : Int64) : Decidable (req.Guards key r) :=
  inferInstanceAs (Decidable (∃ cmp ∈ req.compare, _))

omit [Crates] in
/-- Such a compare holds for an alive key with that revision only. -/
theorem Compare.Guards.alive {cmp : Compare} {key : Bytes} {r : Int64} (h : cmp.Guards key r)
    (hr : r ≠ 0) {s : StoreState} (heval : evalCompare s cmp = true) :
    ∃ ks, s.alive? key = some ks ∧ ks.modRevision = r.toUInt64 := by
  obtain ⟨rfl, htarget, hresult, hunion⟩ := h
  unfold evalCompare at heval
  rw [htarget, hresult, hunion] at heval
  have heval : ((s.alive? cmp.key).map (·.modRevision.toInt64)).getD 0 = r :=
    of_decide_eq_true heval
  cases hks : s.alive? cmp.key with
  | none =>
      rw [hks] at heval
      exact absurd heval.symm hr
  | some ks =>
      rw [hks] at heval
      refine ⟨ks, rfl, ?_⟩
      rw [← heval]
      exact (UInt64.toUInt64_toInt64 _).symm

omit [Crates] in
theorem TxnRequest.Guards.alive {req : TxnRequest} {key : Bytes} {r : Int64} (h : req.Guards key r)
    (hr : r ≠ 0) {s : StoreState} (hall : req.compare.all (evalCompare s) = true) :
    ∃ ks, s.alive? key = some ks ∧ ks.modRevision = r.toUInt64 := by
  obtain ⟨cmp, hcmp, hguards⟩ := h
  exact hguards.alive hr (List.all_eq_true.mp hall cmp hcmp)

variable [LawfulCrates]

end

end Rudurru
