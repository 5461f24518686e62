import Rudurru.Found
import Rudurru.KeysOnly
import Rudurru.Txn.Deferred

/-!
# Rudurru.Deferral

A historical range in a transaction is answered after the transaction has released its lock. What
it reads may have changed by then, by the transaction's own writes and by those of others: the
counter may have reached the revision asked for, the watermark may have passed it, and phase 1 looks
at entries as they are now. `Unaffected` says when none of this shows, and then the transaction
answers as if its ranges had been read before it (`deferred_ranges_unaffected`).

What the file has at a revision does not change when records are appended at later ones
(`Onward.scan_eq`), so only the entries in memory can make a difference, and each key can be looked
at on its own (`pairAt` in `Found`). A key that was not written keeps its class. One that was
written may move from the direct to the stale class, as long as the WAL has for it what the entry
had (`SameKey`). The condition of the theorem is the conjunction over the keys of the range; it is a
condition on two states, the one before the transaction and the one the range is run on.
-/

namespace Rudurru

open Std (ExtTreeMap)
open Prog (exec)

section

variable [Crates]

/-! ### What others commit -/

/-- The store went from `s` to `t` by requests: all writes are at the counter of `s` or above. -/
structure Onward (s t : StoreState) (ws : List Write) : Prop where
  commits : Commits s ws t
  fits : ∀ w ∈ ws, w.record.Fits
  nextRev_le : s.nextRev.toNat ≤ t.nextRev.toNat
  rev_ge : ∀ w ∈ ws, s.nextRev.toNat ≤ w.rev.toNat

theorem Onward.refl {s : StoreState} (h : s.wal.faults = []) : Onward s s [] :=
  ⟨.refl h, by simp, Nat.le_refl _, by simp⟩

theorem Onward.trans {s t u : StoreState} {ws vs : List Write} (h : Onward s t ws)
    (h' : Onward t u vs) : Onward s u (ws ++ vs) where
  commits := h.commits.trans h'.commits
  fits := by
    intro w hw
    rcases List.mem_append.mp hw with hw | hw
    · exact h.fits w hw
    · exact h'.fits w hw
  nextRev_le := Nat.le_trans h.nextRev_le h'.nextRev_le
  rev_ge := by
    intro w hw
    rcases List.mem_append.mp hw with hw | hw
    · exact h.rev_ge w hw
    · exact Nat.le_trans h.nextRev_le (h'.rev_ge w hw)

theorem Onward.of_served {s t : StoreState} {ws : List Write} (h : Served s ws t)
    (hfit : ∀ rec ∈ t.wal.log, rec.Fits) (hcount : s.nextRev.toNat + 1 < 2 ^ 64) :
    Onward s t ws := by
  obtain ⟨hle, -, hrev⟩ := h.toNat_nextRev hcount
  refine ⟨h.toCommits, ?_, hle, ?_⟩
  · intro w hw
    refine hfit _ ?_
    rw [h.log]
    exact List.mem_append_right _ (List.mem_map_of_mem hw)
  · intro w hw
    rw [(hrev w hw).1]

/-- The request keeps the conditions of a run. -/
def StoreState.Admits (s : StoreState) (q : Request) : Prop :=
  System.StepOk ⟨s, none⟩ (.request q)

instance (s : StoreState) (q : Request) : Decidable (s.Admits q) :=
  inferInstanceAs (Decidable (System.StepOk ⟨s, none⟩ (.request q)))

theorem onward_of_serve {s t : StoreState} {qs : List Request} (hs : s.wal.faults = [])
    (h : serve s qs = some t) (hok : Trace.Along answer StoreState.Admits s qs) :
    ∃ ws, Onward s t ws := by
  induction qs generalizing s with
  | nil =>
      cases h
      exact ⟨[], .refl hs⟩
  | cons q qs ih =>
      obtain ⟨s₁, hq, hqs⟩ := serve_cons.mp h
      obtain ⟨⟨hfit, hcounts⟩, hrest⟩ := hok
      obtain ⟨ws, hws⟩ := answer_served hs hq
      obtain ⟨vs, hvs⟩ := ih hws.faults hqs (hrest s₁ hq)
      exact ⟨ws ++ vs, (Onward.of_served hws (hfit s₁ hq) hcounts.2).trans hvs⟩

/-- The locked part of a transaction. -/
theorem onward_of_txnLocked {s s₁ : StoreState} {req : TxnRequest}
    {a : TxnResponse × List (List Nat × RangeRequest)} (hs : s.wal.faults = [])
    (h : exec (txnLocked req) s = (.ok a, s₁)) (hfit : ∀ rec ∈ s₁.wal.log, rec.Fits)
    (hcount : s.nextRev.toNat + 1 < 2 ^ 64) : ∃ ws, Onward s s₁ ws := by
  have hspec := txnLocked_spec req hs (by rw [h]; simp)
  rw [h] at hspec
  obtain ⟨ws, hws⟩ := hspec
  exact ⟨ws, .of_served hws.toServed hfit hcount⟩

/-! ### What the file has at a revision -/

omit [Crates] in
/-- The blob that the records up to a revision leave a key with. -/
def recordedIn (recs : List KvWalRecord) (r : UInt64) (key : Bytes) : Option Bytes :=
  (lastData (recs.filter (·.revision ≤ r)) key).map Prod.snd

/-- The same of the WAL file. -/
def StoreState.recorded (s : StoreState) (r : UInt64) (key : Bytes) : Option Bytes :=
  recordedIn (scanKvFile s.wal.contents 0).1 r key

/-- **A scan reads what the file has.** -/
theorem scan_recorded {s : StoreState} {recs : List KvWalRecord}
    (hcontents : s.wal.contents = serializeAll recs) (hwf : ∀ rec ∈ recs, rec.WellFormed)
    (key rangeEnd : Bytes) (r : UInt64) :
    ∃ walState, scanWalRange s.wal.contents key rangeEnd r = .ok walState ∧
      ∀ k, matchesRange (resolveRange key rangeEnd) k = true → walState[k]? = s.recorded r k := by
  have hscan := scanKvFile_serializeAll hwf
  refine ⟨_, by rw [scanWalRange, hcontents, hscan], ?_⟩
  intro k hmatch
  rw [getElem?_scan, if_pos hmatch, StoreState.recorded, hcontents, hscan]
  rfl

theorem Onward.record [LawfulCrates] {s t : StoreState} {ws : List Write} (h : Onward s t ws) :
    ∀ rec ∈ ws.map Write.record, rec.WellFormed ∧ s.nextRev.toNat ≤ rec.revision.toNat := by
  intro rec hrec
  obtain ⟨w, hw, rfl⟩ := List.mem_map.mp hrec
  obtain ⟨hwf, -, hrev⟩ := Write.record_spec (h.fits w hw)
  exact ⟨hwf, by rw [hrev]; exact h.rev_ge w hw⟩

/-- The file is longer by well-formed records. -/
theorem Onward.file [LawfulCrates] {s t : StoreState} {ws : List Write} (h : Onward s t ws)
    {recs : List KvWalRecord} (hcontents : s.wal.contents = serializeAll recs)
    (hwf : ∀ rec ∈ recs, rec.WellFormed) :
    t.wal.contents = serializeAll (recs ++ ws.map Write.record) ∧
      ∀ rec ∈ recs ++ ws.map Write.record, rec.WellFormed := by
  refine ⟨by rw [h.commits.contents, hcontents, serializeAll_append], ?_⟩
  intro rec hrec
  rcases List.mem_append.mp hrec with hrec | hrec
  · exact hwf rec hrec
  · exact (h.record rec hrec).1

/-- **Later writes do not change what a scan reads.** -/
theorem Onward.scan_eq [LawfulCrates] {s t : StoreState} {ws : List Write} (h : Onward s t ws)
    {recs : List KvWalRecord} (hcontents : s.wal.contents = serializeAll recs)
    (hwf : ∀ rec ∈ recs, rec.WellFormed) {r : UInt64} (hr : r.toNat < s.nextRev.toNat)
    (key rangeEnd : Bytes) :
    scanWalRange t.wal.contents key rangeEnd r = scanWalRange s.wal.contents key rangeEnd r := by
  have hskip : ∀ (l : List KvWalRecord) (m : ExtTreeMap Bytes Bytes),
      (∀ rec ∈ l, ¬ rec.revision ≤ r) →
        l.foldl (scanWalRecord (resolveRange key rangeEnd) r) m = m := by
    intro l
    induction l with
    | nil => exact fun _ _ => rfl
    | cons rec l ih =>
        intro m hl
        rw [List.foldl_cons, scanWalRecord_of_gt (hl rec List.mem_cons_self)]
        exact ih m fun rec' hrec' => hl rec' (List.mem_cons_of_mem _ hrec')
  obtain ⟨hcontents', hwf'⟩ := h.file hcontents hwf
  simp only [scanWalRange, hcontents, hcontents', scanKvFile_serializeAll hwf,
    scanKvFile_serializeAll hwf', List.foldl_append]
  rw [hskip]
  intro rec hrec hle
  have := (h.record rec hrec).2
  rw [UInt64.le_iff_toNat_le] at hle
  omega

/-! ### Keys that are found otherwise than the file has them -/

/-- Phase 1 skips a key that the file has, and nothing else makes the range read the file. -/
def Hidden (s : StoreState) (req : RangeRequest) (r : UInt64) (key : Bytes) : Prop :=
  s.phase1 req r key = .skip ∧ (s.recorded r key).isSome ∧ classified s req r .stale = []

/-- Phase 1 looks for a key in the file that is not there, and its blob of now is taken. -/
def Shown (s : StoreState) (req : RangeRequest) (r : UInt64) (key : Bytes) : Prop :=
  s.phase1 req r key = .stale ∧ s.recorded r key = none ∧ (s.alive? key).isSome

/-- The blob stored for a key. -/
def StoreState.blob (s : StoreState) (key : Bytes) : Option Bytes :=
  s.keys[key]?.map KeyState.kvBytes

/-- A direct key has the blob that the file has. -/
def Recorded (s : StoreState) (req : RangeRequest) (r : UInt64) (key : Bytes) : Prop :=
  s.phase1 req r key = .direct → s.recorded r key = s.blob key

/-- What a range at `r` finds for a key is the same in two states: it is hidden in both or in
neither, shown in both or in neither, and the key has the same class and blob, or the blob found for
it is the one that the file has. In the last case the class may change: the key is then shown with
what the file has, which is what it was shown with before. -/
structure SameKey (s t : StoreState) (req : RangeRequest) (r : UInt64) (key : Bytes) : Prop where
  hidden : Hidden s req r key ↔ Hidden t req r key
  shown : Shown s req r key ↔ Shown t req r key
  blob : s.phase1 req r key = t.phase1 req r key ∧ s.blob key = t.blob key ∨
    ¬ Shown t req r key ∧ Recorded s req r key ∧ Recorded t req r key

instance (s : StoreState) (req : RangeRequest) (r : UInt64) (key : Bytes) :
    Decidable (Hidden s req r key) := inferInstanceAs (Decidable (_ ∧ _ ∧ _))

instance (s : StoreState) (req : RangeRequest) (r : UInt64) (key : Bytes) :
    Decidable (Shown s req r key) := inferInstanceAs (Decidable (_ ∧ _ ∧ _))

instance (s : StoreState) (req : RangeRequest) (r : UInt64) (key : Bytes) :
    Decidable (Recorded s req r key) := inferInstanceAs (Decidable (_ → _))

instance (s t : StoreState) (req : RangeRequest) (r : UInt64) (key : Bytes) :
    Decidable (SameKey s t req r key) :=
  decidable_of_iff ((Hidden s req r key ↔ Hidden t req r key) ∧
      (Shown s req r key ↔ Shown t req r key) ∧
      (s.phase1 req r key = t.phase1 req r key ∧ s.blob key = t.blob key ∨
        ¬ Shown t req r key ∧ Recorded s req r key ∧ Recorded t req r key))
    ⟨fun h => ⟨h.1, h.2.1, h.2.2⟩, fun h => ⟨h.hidden, h.shown, h.blob⟩⟩

/-- What is found for a key, from what the file has. -/
theorem pairAt_of_recorded {s : StoreState} {req : RangeRequest} {r : UInt64} {key : Bytes}
    {walState : ExtTreeMap Bytes Bytes} (hwal : walState[key]? = s.recorded r key)
    (hshown : ¬ Shown s req r key) (hrec : Recorded s req r key) :
    s.pairAt req r walState key = none ∧ Hidden s req r key ∨
      s.pairAt req r walState key = s.recorded r key ∧ ¬ Hidden s req r key := by
  unfold StoreState.pairAt
  cases hclass : s.phase1 req r key with
  | direct =>
      refine .inr ⟨(hrec hclass).symm, ?_⟩
      intro hhidden
      rw [Hidden, hclass] at hhidden
      cases hhidden.1
  | stale =>
      refine .inr ⟨?_, ?_⟩
      -- a stale key falls back to its entry only if the file has nothing for it, and then it is
      -- shown
      · dsimp only
        rw [hwal]
        cases hget : s.recorded r key with
        | some b => rfl
        | none =>
            rw [Option.none_or, Option.map_eq_none_iff]
            by_contra halive
            exact hshown ⟨hclass, hget, Option.isSome_iff_ne_none.mpr halive⟩
      · intro hhidden
        rw [Hidden, hclass] at hhidden
        cases hhidden.1
  | skip =>
      dsimp only
      by_cases hstale : classified s req r .stale = []
      · rw [if_pos hstale]
        cases hget : s.recorded r key with
        | some b => exact .inl ⟨rfl, hclass, by rw [hget]; rfl, hstale⟩
        | none =>
            refine .inr ⟨rfl, ?_⟩
            intro hhidden
            rw [Hidden, hget] at hhidden
            cases hhidden.2.1
      · rw [if_neg hstale, hwal]
        exact .inr ⟨rfl, fun hhidden => hstale hhidden.2.2⟩

omit [Crates] in
/-- The blob of an alive key is the one stored for it. -/
theorem map_alive? (s : StoreState) (key : Bytes) :
    (s.alive? key).map KeyState.kvBytes = if (s.alive? key).isSome then s.blob key else none := by
  cases halive : s.alive? key with
  | none => rfl
  | some ks =>
      rw [StoreState.blob, (aliveIn_eq_some.mp halive).1]
      rfl

/-- **Same keys are found the same.** The cases are the classes of the key on the two states. Where
they differ, both answers come from the file. -/
theorem SameKey.pairAt_eq {s t : StoreState} {req : RangeRequest} {r : UInt64} {key : Bytes}
    {walState : ExtTreeMap Bytes Bytes} (h : SameKey s t req r key)
    (hs : walState[key]? = s.recorded r key) (ht : walState[key]? = t.recorded r key) :
    t.pairAt req r walState key = s.pairAt req r walState key := by
  rcases h.blob with ⟨hclass, hblob⟩ | ⟨hshown, hrec, hrec'⟩
  · unfold StoreState.pairAt
    rw [← hclass]
    have hrecorded : t.recorded r key = s.recorded r key := ht.symm.trans hs
    have hhidden := h.hidden
    have hshown := h.shown
    rw [Hidden, Hidden, ← hclass, hrecorded] at hhidden
    rw [Shown, Shown, ← hclass, hrecorded] at hshown
    -- the same class and the same records: only what stands in for a missing record can differ
    cases hs₀ : s.phase1 req r key with
    | direct => exact hblob.symm
    | stale =>
        dsimp only
        rw [map_alive?, map_alive?, hblob, hs]
        cases hget : s.recorded r key with
        | some b => rfl
        | none =>
            simp only [hs₀, hget, true_and] at hshown
            simp only [hshown]
    | skip =>
        dsimp only
        rw [hs]
        cases hget : s.recorded r key with
        | none => simp
        | some b =>
            simp only [hs₀, hget, Option.isSome_some, true_and] at hhidden
            simp only [hhidden]
  -- the class may change here, as long as the answer is what is recorded, in both states or in
  -- neither
  · have hsame : t.recorded r key = s.recorded r key := ht.symm.trans hs
    rcases pairAt_of_recorded hs (fun hs => hshown (h.shown.mp hs)) hrec with
      ⟨hpair, hhidden⟩ | ⟨hpair, hhidden⟩
    · rcases pairAt_of_recorded ht hshown hrec' with ⟨hpair', -⟩ | ⟨-, hhidden'⟩
      · rw [hpair, hpair']
      · exact absurd (h.hidden.mp hhidden) hhidden'
    · rcases pairAt_of_recorded ht hshown hrec' with ⟨-, hhidden'⟩ | ⟨hpair', -⟩
      · exact absurd (h.hidden.mpr hhidden') hhidden
      · rw [hpair, hpair', hsame]

/-! ### Ranges on two states -/

/-- The answer to a range at a revision that was not reached yet. -/
def futureError : Failure :=
  .status .outOfRange "etcdserver: mvcc: required revision is a future revision"

theorem range_eq_future {s : StoreState} {req : RangeRequest} (hkey : req.key ≠ [])
    (hrev : 0 < req.revision) (h : s.currentRevision < req.revision.toUInt64) :
    range s req = .error futureError := by
  simp only [range, checkKey, hkey, if_false, if_pos hrev, gt_iff_lt, if_pos h]
  rfl

theorem range_eq_compacted {s : StoreState} {req : RangeRequest} (hkey : req.key ≠ [])
    (hrev : 0 < req.revision) (h : req.revision.toUInt64 ≤ s.currentRevision)
    (hcompacted : req.revision.toUInt64 < s.compactRev) : range s req = .error compactedError := by
  have hpos : (0 : UInt64) < req.revision.toUInt64 := toUInt64_lt_of_lt (Int64.le_refl 0) hrev
  have hreached : ¬ req.revision.toUInt64 > s.currentRevision := UInt64.not_lt.mpr h
  simp only [range, checkKey, hkey, if_false, if_pos hrev, if_neg hreached,
    if_pos (And.intro hpos hcompacted)]
  rfl

/-- Between `s` and `t` nothing happened that a range at its revision can tell: the revision was
reached in both or in neither; the watermark did not pass it; and what is found for the keys of the
range is the same. Where the request is refused on the first state nothing else is asked; the bound
on the number of pairs is that of the response's count. -/
structure Unaffected (s t : StoreState) (req : RangeRequest) : Prop where
  future : s.currentRevision < req.revision.toUInt64 →
    t.currentRevision < req.revision.toUInt64
  compacted : req.revision.toUInt64 ≤ s.currentRevision → s.compactRev ≤ req.revision.toUInt64 →
    t.compactRev ≤ req.revision.toUInt64
  keys : req.revision.toUInt64 ≤ s.currentRevision → s.compactRev ≤ req.revision.toUInt64 →
    ∀ key, matchesRange (resolveRange req.key req.rangeEnd) key = true →
      SameKey s t req req.revision.toUInt64 key
  few : ∀ pairs, historicalPairs s req req.revision.toUInt64 = .ok pairs →
    pairs.length < 2 ^ 63

/-- **A range that is not affected answers the same.** The request is refused on both states or on
neither; and where it is not, the pairs are the same key by key, in the same order. -/
theorem Unaffected.range_eq [LawfulCrates] {s t : StoreState} {ws : List Write}
    {req : RangeRequest} (h : Unaffected s t req) (hts : Onward s t ws)
    {recs : List KvWalRecord} (hcontents : s.wal.contents = serializeAll recs)
    (hwf : ∀ rec ∈ recs, rec.WellFormed) (hrev : 0 < req.revision) : range t req = range s req := by
  by_cases hkey : req.key = []
  · simp only [range, checkKey, hkey, if_true]
    rfl
  -- the refusals first: what is refused now is refused later
  by_cases hfuture : s.currentRevision < req.revision.toUInt64
  · rw [range_eq_future hkey hrev hfuture, range_eq_future hkey hrev (h.future hfuture)]
  have hreached := UInt64.not_lt.mp hfuture
  have hpos : (0 : UInt64) < req.revision.toUInt64 := toUInt64_lt_of_lt (Int64.le_refl 0) hrev
  have hlt : req.revision.toUInt64.toNat < s.nextRev.toNat := toNat_lt_nextRev hpos hreached
  have hle := hts.nextRev_le
  have hreached' : req.revision.toUInt64 ≤ t.currentRevision := by
    have hcur := @toNat_currentRevision t (by omega)
    rw [UInt64.le_iff_toNat_le]
    omega
  by_cases hcompacted : req.revision.toUInt64 < s.compactRev
  · rw [range_eq_compacted hkey hrev hreached hcompacted, range_eq_compacted hkey hrev hreached'
      (UInt64.lt_of_lt_of_le hcompacted hts.commits.compactRev_le)]
  have hcompacted := UInt64.not_lt.mp hcompacted
  have hscan := hts.scan_eq hcontents hwf hlt req.key req.rangeEnd
  obtain ⟨hcontents', hwf'⟩ := hts.file hcontents hwf
  obtain ⟨walState, hwal, hrecorded⟩ :=
    scan_recorded hcontents hwf req.key req.rangeEnd req.revision.toUInt64
  obtain ⟨walState', hwal', hrecorded'⟩ :=
    scan_recorded hcontents' hwf' req.key req.rangeEnd req.revision.toUInt64
  -- later records have later revisions, so the scan up to the requested one finds the same
  obtain rfl : walState' = walState := Except.ok.inj (hwal'.symm.trans (hscan.trans hwal))
  have hpairs : historicalPairs t req req.revision.toUInt64
      = historicalPairs s req req.revision.toUInt64 := by
    refine historicalPairs_congr hwal hwal' ?_
    intro key hmatch
    exact (h.keys hreached hcompacted key hmatch).pairAt_eq (hrecorded key hmatch)
      (hrecorded' key hmatch)
  rw [range_eq_historical hkey hrev hcompacted hreached,
    range_eq_historical hkey hrev (h.compacted hreached hcompacted) hreached',
    rangeHistorical_eq_page s req _ h.few, rangeHistorical_eq_page t req _ (hpairs ▸ h.few), hpairs]

/-! ### The transaction -/

/-- What others do before a deferred range of a transaction that began in `s₀`: requests that do
not affect it. -/
def Undisturbed (s₀ : StoreState) (req : RangeRequest) (s t : StoreState) : Prop :=
  (∃ qs, serve s qs = some t ∧ Trace.Along answer StoreState.Admits s qs) ∧ Unaffected s₀ t req

/-- The outcome of a transaction whose historical ranges are read on the state before it. -/
def txnReadBefore (s : StoreState) (req : TxnRequest) : Except Failure TxnResponse := do
  checkTxnDuplicateKeys req
  let (resp, deferred) ← (exec (txnLocked req) s).1
  (exec (runDeferred deferred resp) s).1

theorem AnswersDeferred.eq_runDeferred [LawfulCrates] {s₀ : StoreState} {recs : List KvWalRecord}
    (hcontents : s₀.wal.contents = serializeAll recs) (hwf : ∀ rec ∈ recs, rec.WellFormed)
    {s t : StoreState} {deferred : List (List Nat × RangeRequest)} {resp : TxnResponse}
    {out : Except Failure TxnResponse}
    (h : AnswersDeferred (Undisturbed s₀) s deferred resp out t)
    (hrev : ∀ d ∈ deferred, d.2.revision > 0) {ws : List Write} (hs : Onward s₀ s ws) :
    out = (exec (runDeferred deferred resp) s₀).1 := by
  have hlater : ∀ {req : RangeRequest} {s s₁ : StoreState} {ws : List Write},
      Undisturbed s₀ req s s₁ → Onward s₀ s ws → 0 < req.revision →
        (∃ vs, Onward s₀ s₁ vs) ∧ range s₁ req = range s₀ req := by
    intro req s s₁ ws hbetween hs hpos
    obtain ⟨⟨qs, hserve, hok⟩, hunaffected⟩ := hbetween
    obtain ⟨vs, hvs⟩ := onward_of_serve hs.commits.faults hserve hok
    exact ⟨⟨ws ++ vs, hs.trans hvs⟩, hunaffected.range_eq (hs.trans hvs) hcontents hwf hpos⟩
  induction h generalizing ws with
  | nil => rfl
  | @answered s s₁ s' path req deferred resp r out hbetween hrange _ ih =>
      obtain ⟨⟨vs, hvs⟩, heq⟩ := hlater hbetween hs (hrev _ List.mem_cons_self)
      rw [runDeferred, Prog.exec_bind, exec_read, ← heq, hrange]
      exact ih (fun d hd => hrev d (List.mem_cons_of_mem _ hd)) hvs
  | @fails s s₁ path req deferred resp e hbetween hrange =>
      obtain ⟨-, heq⟩ := hlater hbetween hs (hrev _ List.mem_cons_self)
      rw [runDeferred, Prog.exec_bind, exec_read, ← heq, hrange]

/-- **Deferred ranges answer as if they had been read before the transaction**, as long as nothing
that happens until they run affects them. -/
theorem deferred_ranges_unaffected [LawfulCrates] {evs : List Event} {sys : System}
    (hrun : System.run ⟨fresh, none⟩ evs = some sys)
    (hok : Trace.Along System.step System.StepOk ⟨fresh, none⟩ evs) {req : TxnRequest}
    (hcount : sys.store.nextRev.toNat + 1 < 2 ^ 64)
    (hfit : ∀ rec ∈ (exec (txnLocked req) sys.store).2.wal.log, rec.Fits)
    {out : Except Failure TxnResponse} {t : StoreState}
    (h : TxnRuns (Undisturbed sys.store) sys.store req out t) :
    out = txnReadBefore sys.store req := by
  obtain ⟨hjournaled, hencoded⟩ := encoded_of_run hrun hok
  obtain ⟨recs, hcontents, hrecs⟩ := hencoded.file
  unfold txnReadBefore
  cases h with
  | rejected hcheck =>
      rw [hcheck]
      rfl
  | aborted hcheck hlocked =>
      rw [hcheck, hlocked]
      rfl
  | @locked resp deferred s₁ _ _ hcheck hlocked hdeferred =>
      rw [hlocked] at hfit
      -- whatever is in the file by the time of a deferred range stands behind the records of now
      obtain ⟨ws, hws⟩ := onward_of_txnLocked hjournaled.faults hlocked hfit hcount
      rw [hcheck, hlocked]
      exact hdeferred.eq_runDeferred hcontents (fun r hr => (hrecs r hr).wellFormed)
        (revision_of_deferred hlocked) hws

end

/-- A key is written by the transaction and by another request before its value of the first
revision is read. -/
theorem deferred_ranges_unaffected_point :
    ∃ sys t out,
      System.run ⟨fresh, none⟩ [.request (.put { key := [1], value := [7] })] = some sys ∧
      TxnRuns (Undisturbed sys.store) sys.store
        { success := [.put { key := [1], value := [8] }, .range { key := [1], revision := 1 }] }
        out t ∧
      out = txnReadBefore sys.store
        { success := [.put { key := [1], value := [8] },
            .range { key := [1], revision := 1 }] } := by
  have hrun : ((System.run ⟨fresh, none⟩ [.request (.put { key := [1], value := [7] })]).any
      fun sys =>
        let locked := exec (txnLocked
          { success := [.put { key := [1], value := [8] }, .range { key := [1], revision := 1 }] })
          sys.store
        locked.1.toOption.any (fun r => decide (r.2.map (·.2) = [{ key := [1], revision := 1 }])) &&
          decide (sys.store.nextRev.toNat + 1 < 2 ^ 64 ∧ (∀ rec ∈ locked.2.wal.log, rec.Fits) ∧
            sys.store.currentRevision = (1 : UInt64) ∧
            Trace.Along answer StoreState.Admits locked.2 [.put { key := [1], value := [9] }]) &&
          (historicalPairs sys.store { key := [1], revision := 1 } 1).toOption.all
            (fun pairs => pairs.length < 2 ^ 63) &&
          (serve locked.2 [.put { key := [1], value := [9] }]).any fun t =>
            decide (t.compactRev = 0 ∧ SameKey sys.store t { key := [1], revision := 1 } 1 [1]) &&
              (range t { key := [1], revision := 1 }).toOption.isSome) = true := by
    decide +kernel
  obtain ⟨sys, hsys, hfacts⟩ := (Option.any_eq_true _ _).mp hrun
  dsimp only at hfacts
  rcases hlocked : exec (txnLocked
    { success := [.put { key := [1], value := [8] }, .range { key := [1], revision := 1 }] })
    sys.store with ⟨res, s₁⟩
  rw [hlocked] at hfacts
  obtain ⟨hfacts, hserve⟩ := (Bool.and_eq_true _ _).mp hfacts
  obtain ⟨hfacts, hfew⟩ := (Bool.and_eq_true _ _).mp hfacts
  obtain ⟨hres, hfacts⟩ := (Bool.and_eq_true _ _).mp hfacts
  obtain ⟨⟨resp, deferred⟩, hres, hranges⟩ := (Option.any_eq_true _ _).mp hres
  obtain rfl := Prog.ok_of_toOption hres
  obtain ⟨⟨path, req⟩, rfl, rfl⟩ := List.map_eq_singleton_iff.mp (of_decide_eq_true hranges)
  obtain ⟨hcount, hfit, hcur, hadmits⟩ := of_decide_eq_true hfacts
  obtain ⟨t, ht, hfacts⟩ := (Option.any_eq_true _ _).mp hserve
  obtain ⟨hfacts, hsome⟩ := (Bool.and_eq_true _ _).mp hfacts
  obtain ⟨hcompact, hsame⟩ := of_decide_eq_true hfacts
  obtain ⟨r, hr⟩ := Option.isSome_iff_exists.mp hsome
  have hunaffected : Unaffected sys.store t { key := [1], revision := 1 } := by
    refine ⟨?_, ?_, ?_, ?_⟩
    · rw [hcur]
      exact fun hlt => absurd hlt (UInt64.lt_irrefl 1)
    · intro _ _
      rw [hcompact]
      exact UInt64.zero_le
    · intro _ _ key hmatch
      obtain rfl : key = [1] := of_decide_eq_true hmatch
      exact hsame
    · intro pairs hpairs
      rw [show historicalPairs sys.store { key := [1], revision := 1 } 1 = .ok pairs from hpairs]
        at hfew
      exact of_decide_eq_true hfew
  have hdeferred : AnswersDeferred (Undisturbed sys.store) s₁
      [(path, { key := [1], revision := 1 })] resp
      (.ok { resp with responses := patchDeferredRange resp.responses path r }) t :=
    .answered ⟨⟨_, ht, hadmits⟩, hunaffected⟩ (Prog.ok_of_toOption hr) .nil
  have hruns := TxnRuns.locked (by decide +kernel) hlocked hdeferred
  refine ⟨sys, t, _, hsys, hruns, ?_⟩
  exact deferred_ranges_unaffected hsys (by decide +kernel) hcount (by rw [hlocked]; exact hfit)
    hruns

/-- A transaction reads its own revision: before it, that was a future revision. -/
theorem deferred_range_reads_own_write :
    (exec (txn
        { success := [.put { key := [1], value := [7] }, .range { key := [1], revision := 1 }] })
      fresh).1.toOption.isSome = true ∧
    range fresh { key := [1], revision := 1 } = .error futureError ∧
    txnReadBefore fresh
        { success := [.put { key := [1], value := [7] }, .range { key := [1], revision := 1 }] }
      = .error futureError := by
  refine ⟨by decide +kernel, ?_, ?_⟩
  · exact Prog.eq_error_of_failsWith (by decide +kernel)
  · exact Prog.eq_error_of_failsWith (by decide +kernel)

end Rudurru
