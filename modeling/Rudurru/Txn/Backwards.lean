import Rudurru.Storage.Walkers
import Rudurru.Txn.Panics
import Rudurru.Watermark

/-!
# Rudurru.Txn.Backwards

Ranges whose end comes before their key. `BTreeMap::range` panics on them, and nothing checks for
them before: `resolve_range` hands the pair on as it is, though `matches_range` and
`intervals_overlap` take it for an empty range.

So a request panics there exactly if it gets to a walk of such a range. A range or a deletion that
is admitted gets to its walk; a transaction gets to the walks of the ops it executes, and then to
those of the ranges it set aside (`no_backwards_walk`).

All of it is an instance of `Txn.Panics`: the hazard is a walk of an inverted range
(`backwardsHazard`), and what is proved here is that it is exact, for the three calls that walk. The
condition of the theorem is therefore the general one, on the pairs that clients send and on the ops
that a transaction gets to.
-/

namespace Rudurru

open Prog (exec Avoids)

/-- A call of `BTreeMap::range(start..end)` with `end` below `start`: a panic, as documented, also
counted for a map without entries, where the search that checks the bounds has nothing to do. -/
def rangePanic : Failure := .panic "range start is greater than range end in BTreeMap"

/-- The pair is read as an interval, and it ends before it starts. -/
def backwards (key rangeEnd : Bytes) : Bool :=
  rangeEnd ≠ [] && rangeEnd ≠ [0] && bytesLt rangeEnd key

theorem not_bytesLt_nil (k : Bytes) : bytesLt k [] = false := by
  cases k with
  | nil => rfl
  | cons b k => rw [bytesLt, compare_cons_nil]; rfl

theorem backwards_nil (rangeEnd : Bytes) : backwards [] rangeEnd = false := by
  rw [backwards, not_bytesLt_nil, Bool.and_false]

/-- The prefix forms of `resolve_range` end after they start. -/
theorem inverted_resolveRange (key rangeEnd : Bytes) :
    (resolveRange key rangeEnd).inverted = backwards key rangeEnd := by
  by_cases hkey : key = []
  · subst hkey
    rw [backwards_nil]
    cases hbound : resolveRange [] rangeEnd with
    | all | point k | fromKey k | prefixOf p => rfl
    | range start stop =>
        have hstart : start = [] := by
          unfold resolveRange at hbound
          split at hbound
          · cases hbound
          · split at hbound
            · cases hbound
            · split at hbound
              · cases hbound
              · split at hbound
                · cases hbound
                · cases hbound
                  rfl
        rw [hstart]
        exact not_bytesLt_nil stop
  · unfold resolveRange backwards
    by_cases hempty : rangeEnd = []
    · simp [hempty, RangeBound.inverted]
    rw [if_neg hempty]
    by_cases hfrom : rangeEnd = [0]
    · simp [hfrom, hkey, RangeBound.inverted]
    rw [if_neg hfrom]
    by_cases hinc : rangeEnd.length = key.length ∧ rangeEnd.dropLast = key.dropLast
        ∧ rangeEnd.getLast? = key.getLast?.map (· + 1) ∧ key.getLast? ≠ some 0xff
    · rw [if_pos hinc]
      obtain ⟨q, b, hb, rfl, rfl⟩ := (incremented_iff hkey).mp hinc
      -- the interval of an increment holds the key itself
      have hself := (Bool.eq_iff_iff.mp (incremented_interval_iff (q := q) hb (q ++ [b]))).mpr
        (List.isPrefixOf_iff_prefix.mpr (List.prefix_refl _))
      obtain ⟨-, hlt⟩ := (Bool.and_eq_true _ _).mp hself
      have hle := bytesLe_of_bytesLt hlt
      simp [RangeBound.inverted, bytesLt_eq_not_bytesLe, hle]
    rw [if_neg hinc]
    by_cases hsuffix : rangeEnd = key ++ [0]
    · have hle := bytesLe_of_isPrefixOf (List.isPrefixOf_iff_prefix.mpr ⟨[0], hsuffix.symm⟩)
      rw [if_pos hsuffix]
      simp [RangeBound.inverted, bytesLt_eq_not_bytesLe, hle]
    · rw [if_neg hsuffix]
      simp [RangeBound.inverted, hempty, hfrom]

/-! ### The walks -/

theorem walkRange_eq_rangePanic {β : Type} (m : Std.ExtTreeMap Bytes β) (bound : RangeBound) :
    walkRange m bound (btreeBounds bound) = .error rangePanic ↔ bound.inverted = true := by
  cases hinv : bound.inverted with
  | false => simp [walkRange_eq_filter m hinv]
  | true =>
      cases bound with
      | all | point k | fromKey k | prefixOf p => cases hinv
      | range start stop =>
          have hlt : bytesLt stop start = true := hinv
          simp only [walkRange, btreeBounds, btreeRange, hlt, if_true, iff_true]
          rfl

/-- A walk has no other way to fail. -/
theorem eq_rangePanic_of_walkRange {β : Type} {m : Std.ExtTreeMap Bytes β} {bound : RangeBound}
    {e : Failure} (h : walkRange m bound (btreeBounds bound) = .error e) : e = rangePanic := by
  cases hinv : bound.inverted with
  | false =>
      rw [walkRange_eq_filter m hinv] at h
      cases h
  | true =>
      rw [(walkRange_eq_rangePanic m bound).mpr hinv] at h
      cases h
      rfl

theorem visitedCurrent_eq_rangePanic {β : Type} (m : Std.ExtTreeMap Bytes β) (bound : RangeBound) :
    visitedCurrent m bound = .error rangePanic ↔ bound.inverted = true := by
  cases bound with
  | point k => simp [visitedCurrent, RangeBound.inverted]
  | all => exact walkRange_eq_rangePanic m .all
  | fromKey k => exact walkRange_eq_rangePanic m (.fromKey k)
  | prefixOf p => exact walkRange_eq_rangePanic m (.prefixOf p)
  | range start stop => exact walkRange_eq_rangePanic m (.range start stop)

theorem vecWithCapacity_ne_rangePanic (cap : Nat) : vecWithCapacity cap ≠ .error rangePanic := by
  unfold vecWithCapacity
  split
  · intro h
    injection h with h
    injection h with h
    revert h
    decide
  · intro h
    cases h

/-- The vector that `range_current` allocates before it walks is not too large. -/
def allocates (s : StoreState) (req : RangeRequest) : Bool :=
  (vecWithCapacity (if req.limit > 0 then req.limit.toUInt64.toNat else s.keys.size)).isOk

/-- `range_current` gets to a walk, backwards. -/
def currentBackwards (s : StoreState) (req : RangeRequest) : Bool :=
  allocates s req && backwards req.key req.rangeEnd

theorem rangeCurrent_eq_rangePanic (s : StoreState) (req : RangeRequest) :
    rangeCurrent s req = .error rangePanic ↔ currentBackwards s req = true := by
  rw [rangeCurrent_eq_entries, currentBackwards, ← inverted_resolveRange]
  have hwalk : ∀ bound : RangeBound,
      (do
        let entries ← visitedCurrent s.keys bound
        return currentResponse s req entries : Except Failure RangeResponse) = .error rangePanic ↔
        bound.inverted = true := fun bound =>
    (Prog.bind_eq_error_iff fun _ h => by cases h).trans (visitedCurrent_eq_rangePanic s.keys bound)
  cases hbound : resolveRange req.key req.rangeEnd with
  | point k =>
      refine (hwalk (.point k)).trans ?_
      simp [RangeBound.inverted]
  | all | fromKey k | prefixOf p | range start stop =>
      refine Prog.bind_eq_error.trans ?_
      rw [Bool.and_eq_true, allocates]
      constructor
      · intro h
        rcases h with h | ⟨a, hcap, h⟩
        · exact absurd h (vecWithCapacity_ne_rangePanic _)
        · rw [hcap]
          exact ⟨rfl, (hwalk _).mp h⟩
      · intro h
        obtain ⟨hok, hinv⟩ := h
        cases hcap : vecWithCapacity
            (if req.limit > 0 then req.limit.toUInt64.toNat else s.keys.size) with
        | error e =>
            rw [hcap] at hok
            cases hok
        | ok a => exact .inr ⟨a, rfl, (hwalk _).mpr hinv⟩

/-- The revision a range asks for is neither in the future nor compacted away. -/
def StoreState.admits (s : StoreState) (req : RangeRequest) : Bool :=
  let targetRev : UInt64 := if req.revision > 0 then req.revision.toUInt64 else 0
  targetRev ≤ s.currentRevision && !(0 < targetRev && targetRev < s.compactRev)

/-- `Store::range` gets to a walk, backwards. -/
def rangeBackwards (s : StoreState) (req : RangeRequest) : Bool :=
  s.admits req &&
    if req.revision > 0 then backwards req.key req.rangeEnd else currentBackwards s req

section

variable [Crates]

/-- A historical range panics in its walk of the map, if at all. -/
theorem rangeHistorical_eq_panic {m : String} (s : StoreState) (req : RangeRequest)
    (targetRev : UInt64) :
    rangeHistorical s req targetRev = .error (.panic m) ↔
      walkRange s.keys (resolveRange req.key req.rangeEnd)
        (btreeBounds (resolveRange req.key req.rangeEnd)) = .error (.panic m) := by
  have hphase1 : historicalPhase1 s req targetRev = .error (.panic m) ↔
      walkRange s.keys (resolveRange req.key req.rangeEnd)
        (btreeBounds (resolveRange req.key req.rangeEnd)) = .error (.panic m) :=
    Prog.bind_eq_error_iff fun _ h => by cases h
  refine Iff.trans (Prog.bind_eq_error_iff ?_) hphase1
  intro a
  by_cases hstale : a.2 = []
  · cases hcount : req.countOnly <;> simp only [hstale, if_true] <;> intro h <;> cases h
  · simp only [hstale, if_false]
    cases scanWalRange s.wal.contents req.key req.rangeEnd targetRev with
    | error e =>
        intro h
        cases h
    | ok walState => cases hcount : req.countOnly <;> intro h <;> cases h

/-- A range that is admitted panics where its walk, or its allocation, does. -/
theorem range_eq_panic {m : String} (s : StoreState) (req : RangeRequest) :
    range s req = .error (.panic m) ↔ req.key ≠ [] ∧ s.admits req = true ∧
      if req.revision > 0 then
        walkRange s.keys (resolveRange req.key req.rangeEnd)
          (btreeBounds (resolveRange req.key req.rangeEnd)) = .error (.panic m)
      else rangeCurrent s req = .error (.panic m) := by
  rw [range, StoreState.admits]
  by_cases hkey : req.key = []
  · have hcheck : checkKey req.key
        = .error (.status .invalidArgument "etcdserver: key is not provided") := if_pos hkey
    rw [hcheck]
    refine iff_of_false ?_ fun h => h.1 hkey
    intro h
    cases h
  · have hcheck : checkKey req.key = .ok () := if_neg hkey
    rw [hcheck, and_iff_right hkey]
    generalize htarget : (if req.revision > 0 then req.revision.toUInt64 else 0) = targetRev
    -- a revision of zero or below asks for the current state
    have hhist : 0 < targetRev ↔ req.revision > 0 := by
      rw [← htarget]
      split
      · exact iff_of_true (toUInt64_lt_of_lt (Int64.le_refl 0) ‹_›) ‹_›
      · exact iff_of_false (UInt64.lt_irrefl 0) ‹_›
    -- refused before the walk: neither of these two can panic
    by_cases hfuture : s.currentRevision < targetRev
    · simp only [gt_iff_lt, if_pos hfuture, UInt64.not_le.mpr hfuture]
      constructor
      · intro h
        cases h
      · intro h
        cases h.1
    by_cases hcompacted : 0 < targetRev ∧ targetRev < s.compactRev
    · simp only [gt_iff_lt, if_neg hfuture, if_pos hcompacted]
      constructor
      · intro h
        cases h
      · intro h
        have hadmits := h.1
        simp [hcompacted.1, hcompacted.2] at hadmits
    have hadmits : (targetRev ≤ s.currentRevision && !(0 < targetRev && targetRev < s.compactRev))
        = true := by
      rw [decide_eq_true (UInt64.not_lt.mp hfuture), Bool.true_and, ← Bool.decide_and,
        decide_eq_false hcompacted, Bool.not_false]
    rw [hadmits, and_iff_right rfl]
    simp only [gt_iff_lt, if_neg hfuture, if_neg hcompacted]
    by_cases hrev : 0 < req.revision
    · simp only [if_pos hrev, if_pos (hhist.mpr hrev)]
      exact rangeHistorical_eq_panic s req targetRev
    · simp only [if_neg hrev, if_neg fun h => hrev (hhist.mp h)]
      rfl

theorem range_eq_rangePanic (s : StoreState) (req : RangeRequest) :
    range s req = .error rangePanic ↔ rangeBackwards s req = true := by
  rw [rangePanic, range_eq_panic, rangeBackwards, Bool.and_eq_true, ← rangePanic,
    walkRange_eq_rangePanic, inverted_resolveRange, rangeCurrent_eq_rangePanic]
  by_cases hkey : req.key = []
  · have hforwards : backwards req.key req.rangeEnd = false := by rw [hkey, backwards_nil]
    rw [currentBackwards, hforwards]
    simp [hkey]
  · rw [and_iff_right hkey]
    by_cases hrev : req.revision > 0
    · rw [if_pos hrev, if_pos hrev]
    · rw [if_neg hrev, if_neg hrev]

end

/-! ### Deletions and puts -/

theorem keysToDelete_eq_rangePanic (s : StoreState) (bound : RangeBound) :
    s.keysToDelete bound = .error rangePanic ↔ bound.inverted = true := by
  cases bound with
  | point k => simp [StoreState.keysToDelete, RangeBound.inverted]
  | all | fromKey k | prefixOf p | range start stop =>
      rw [← walkRange_eq_rangePanic s.keys]
      exact Prog.bind_eq_error_iff fun _ h => by cases h

section

variable [Crates]

/-- A deletion fails there exactly if its range is backwards. -/
theorem deleteRangeAt_eq_rangePanic (req : DeleteRangeRequest) (rev : UInt64) (s : StoreState) :
    (exec (deleteRangeAt req rev) s).1 = .error rangePanic ↔
      backwards req.key req.rangeEnd = true := by
  rw [← inverted_resolveRange, ← keysToDelete_eq_rangePanic s]
  exact deleteRangeAt_eq_panic (by decide) req rev s

/-! ### Transactions -/

/-- The calls that walk backwards. -/
def backwardsHazard : Hazard where
  current := currentBackwards
  delete := fun d => backwards d.key d.rangeEnd
  range := rangeBackwards

/-- A transaction gets to a walk, backwards: in an op it executes, or in a range it set aside. A
historical range is set aside at first; a nested transaction executes the branch its compares
choose. -/
def txnBackwards (s : StoreState) (req : TxnRequest) : Bool := backwardsHazard.txn s req

theorem backwardsHazard_exact :
    backwardsHazard.Exact "range start is greater than range end in BTreeMap" where
  current := rangeCurrent_eq_rangePanic
  delete := fun req rev s _ => deleteRangeAt_eq_rangePanic req rev s
  delete_key := by
    intro req hkey
    show backwards req.key req.rangeEnd = false
    rw [hkey, backwards_nil]
  range := range_eq_rangePanic

/-- **No request walks a range backwards** unless it gets to a range that is backwards. The pairs
are those that the client has sent. A transaction is looked at op by op, with the state that each op
meets, and its deferred ranges with the state they meet. -/
theorem no_backwards_walk (s : StoreState) :
    (∀ req : RangeRequest, range s req ≠ .error rangePanic ↔ rangeBackwards s req = false) ∧
      (∀ req : DeleteRangeRequest, (exec (deleteRange req) s).1 ≠ .error rangePanic ↔
        backwards req.key req.rangeEnd = false) ∧
      (∀ req : TxnRequest, (exec (txn req) s).1 ≠ .error rangePanic ↔
        txnBackwards s req = false) := by
  refine ⟨?_, ?_, ?_⟩
  · intro req
    rw [Ne, range_eq_rangePanic, Bool.not_eq_true]
  · intro req
    rw [Ne, ← Bool.not_eq_true]
    exact not_congr (backwardsHazard_exact.deleteRange req s)
  · intro req
    rw [Ne, ← Bool.not_eq_true]
    exact not_congr (backwardsHazard_exact.txn req s)

end

/-- A range from `[2]` to `[1]`, in a store with one key: on its own, at an earlier revision, as a
deletion and in a transaction. -/
theorem backwards_range_panics :
    ∃ s : StoreState, serve fresh [.put { key := [3] }] = some s ∧
      range s { key := [2], rangeEnd := [1] } = .error rangePanic ∧
      range s { key := [2], rangeEnd := [1], revision := 1 } = .error rangePanic ∧
      (exec (deleteRange { key := [2], rangeEnd := [1] }) s).1 = .error rangePanic ∧
      (exec (txn { success := [.range { key := [2], rangeEnd := [1] }] }) s).1
        = .error rangePanic := by
  have hrun : ((serve fresh [.put { key := [3] }]).any fun s =>
      Prog.failsWith rangePanic (range s { key := [2], rangeEnd := [1] }) &&
        Prog.failsWith rangePanic (range s { key := [2], rangeEnd := [1], revision := 1 }) &&
        Prog.failsWith rangePanic (exec (deleteRange { key := [2], rangeEnd := [1] }) s).1 &&
        Prog.failsWith rangePanic
          (exec (txn { success := [.range { key := [2], rangeEnd := [1] }] }) s).1) = true := by
    decide +kernel
  obtain ⟨s, hs, hfails⟩ := (Option.any_eq_true _ _).mp hrun
  simp only [Bool.and_eq_true] at hfails
  obtain ⟨⟨⟨hcurrent, hhistorical⟩, hdelete⟩, htxn⟩ := hfails
  exact ⟨s, hs, Prog.eq_error_of_failsWith hcurrent, Prog.eq_error_of_failsWith hhistorical,
    Prog.eq_error_of_failsWith hdelete, Prog.eq_error_of_failsWith htxn⟩

end Rudurru
