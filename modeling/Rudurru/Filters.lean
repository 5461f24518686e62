import Rudurru.Found
import Rudurru.KeysOnly

/-!
# Rudurru.Filters

Revision filters on a historical range, in a run that deletes nothing. Phase 1 applies them to
the entries as they are now, and the merge, which adds whatever the WAL had at the revision asked
for, does not apply them at all. So a key that was written since is dropped where it passed the
filters then and fails them now, and as soon as one such key passes them now, every key that was
alive then is answered with. The filters act on the entries of then exactly where neither shows
(`filters_on_history`).

`Fate` names what can have become of a key between the two states when nothing was deleted: it was
not there then, it is as it was, or it was written since. Whether it is found is then a matter of
cases (`Kept.found_iff`), and the case that makes the difference is a key that was written since and
passes the filters now: it sends the range to the WAL, and the merge then adds every key that was
alive, filtered or not. So the statement quantifies over two keys: the one that is judged and the
one that makes the WAL be read.
-/

namespace Rudurru

open Std (ExtTreeMap)

section

variable [Crates]

/-! ### Puts only -/

/-- No record deletes a key. -/
def DeletesNothing (s : StoreState) : Prop := ∀ rec ∈ s.wal.log, rec.deleted = false

/-- Every entry is alive and in the first lifetime of its key. -/
def NeverDeleted (K : Keyspace) : Prop :=
  ∀ (key : Bytes) (ks : KeyState), K.keys[key]? = some ks →
    ks.deleteRevision = 0 ∧ ks.rebirth = false

omit [Crates] in
theorem NeverDeleted.aliveIn {K : Keyspace} (h : NeverDeleted K) (key : Bytes) :
    aliveIn K.keys key = K.keys[key]? := by
  cases hget : K.keys[key]? with
  | none => simp [Rudurru.aliveIn, hget]
  | some ks => simp [Rudurru.aliveIn, hget, KeyState.isAlive, (h key ks hget).1]

omit [Crates] in
theorem neverDeleted_empty : NeverDeleted .empty := by
  intro key ks hks
  simp [Keyspace.empty] at hks

theorem NeverDeleted.apply {K : Keyspace} {w : Write} (h : NeverDeleted K)
    (hput : w.record.deleted = false) : NeverDeleted (K.apply w) := by
  intro key ks hks
  cases w with
  | delete k rev prev =>
      rw [Write.record, deleted_deleteRecord] at hput
      cases hput
  | put k value lease rev prev =>
      rcases getElem?_insert_cases hks with ⟨rfl, rfl⟩ | ⟨-, hks⟩
      · refine ⟨rfl, ?_⟩
        -- an entry that is replaced is alive, so no lifetime begins again
        have hrebirth : (K.keys[key]?.map (!·.isAlive)).getD false = false := by
          cases hget : K.keys[key]? with
          | none => rfl
          | some p => simp [KeyState.isAlive, (h key p hget).1]
        exact hrebirth
      · exact h key ks hks

/-- What puts after `r` may have made of a key's entry at `r`. -/
inductive Grown (r : UInt64) (then? : Option KeyState) : Option KeyState → Prop
  /-- Nothing happened. -/
  | same : Grown r then? then?
  /-- It was updated. -/
  | updated {a ks : KeyState} : then? = some a → ks.createRevision = a.createRevision →
      r < ks.modRevision → Grown r then? (some ks)
  /-- It was created. -/
  | born {ks : KeyState} : then? = none → r < ks.createRevision → Grown r then? (some ks)

theorem Grown.apply {r : UInt64} {K₁ K : Keyspace} {w : Write} (hnever : NeverDeleted K)
    (h : ∀ key : Bytes, Grown r K₁.keys[key]? K.keys[key]?) (hput : w.record.deleted = false)
    (hrev : r < w.rev) : ∀ key : Bytes, Grown r K₁.keys[key]? (K.apply w).keys[key]? := by
  intro key
  cases w with
  | delete k rev prev =>
      rw [Write.record, deleted_deleteRecord] at hput
      cases hput
  | put k value lease rev prev =>
      -- only the entry of the key is replaced, and it keeps its creation if there is one
      show Grown r _ (K.keys.insert k _)[key]?
      by_cases hk : k = key
      · subst hk
        rw [ExtTreeMap.getElem?_insert_self]
        have hgrown := h k
        have hcreate : (putEntry K.keys k value lease rev none).createRevision
            = (K.keys[k]?.map (·.createRevision)).getD rev := by
          rw [createRevision_putEntry, hnever.aliveIn]
        cases hget : K.keys[k]? with
        | none =>
            rw [hget] at hgrown hcreate
            generalize K₁.keys[k]? = then? at hgrown ⊢
            cases hgrown with
            | same => exact .born rfl (hcreate ▸ hrev)
        | some p =>
            rw [hget] at hgrown hcreate
            generalize K₁.keys[k]? = then? at hgrown ⊢
            cases hgrown with
            | same => exact .updated rfl hcreate hrev
            | updated ha hp _ => exact .updated ha (hcreate.trans hp) hrev
            | born hnone hlt => exact .born hnone (hcreate ▸ hlt)
      · rw [ExtTreeMap.getElem?_insert, if_neg (by simpa using hk)]
        exact h key

/-- A store that deletes nothing, against what it was when `r` was its revision. No entry of either
state is a tombstone, and the map of now has every key that it had then. -/
structure Kept (r : UInt64) (s₁ s : StoreState) : Prop where
  earlier : NeverDeleted s₁.keyspace
  later : NeverDeleted s.keyspace
  settled : Settled r s₁.keyspace
  grown : ∀ key : Bytes, Grown r s₁.keys[key]? s.keys[key]?

theorem CutAt.kept {r : UInt64} {s₁ s : StoreState} {ws vs : List Write}
    (h : CutAt r s₁ s ws vs) (hput : ∀ w ∈ ws ++ vs, w.record.deleted = false) :
    Kept r s₁ s := by
  have hbefore : NeverDeleted s₁.keyspace :=
    h.before.invariant neverDeleted_empty fun _ w hw hK _ =>
      hK.apply (hput w (List.mem_append_left _ hw))
  have hafter : NeverDeleted s.keyspace ∧
      ∀ key : Bytes, Grown r s₁.keyspace.keys[key]? s.keyspace.keys[key]? := by
    refine h.after.invariant (P := fun K => NeverDeleted K ∧
      ∀ key : Bytes, Grown r s₁.keyspace.keys[key]? K.keys[key]?) ⟨hbefore, fun _ => .same⟩ ?_
    intro K w hw hK _
    have hw' := hput w (List.mem_append_right _ hw)
    exact ⟨hK.1.apply hw', Grown.apply hK.1 hK.2 hw' (h.rev_gt w hw)⟩
  exact ⟨hbefore, hafter.1, h.settled, hafter.2⟩

/-! ### What is found -/

/-- A key of the range that was alive at `r` and written since: its entry then and now. -/
structure WrittenSince (s₁ s : StoreState) (req : RangeRequest) (r : UInt64) (key : Bytes)
    (ks₁ ks : KeyState) : Prop where
  matches_range : matchesRange (resolveRange req.key req.rangeEnd) key = true
  before : s₁.alive? key = some ks₁
  now : s.alive? key = some ks
  later : r < ks.modRevision

/-- What a key is in such a store. -/
inductive Fate (s₁ s : StoreState) (r : UInt64) (key : Bytes) : Prop
  /-- It was not alive at `r`. -/
  | unborn : s₁.alive? key = none → (∀ ks, s.alive? key = some ks → r < ks.createRevision) →
      Fate s₁ s r key
  /-- It is as it was at `r`. -/
  | unwritten {ks : KeyState} : s₁.alive? key = some ks → s.alive? key = some ks →
      ks.createRevision ≤ r → ks.modRevision ≤ r → Fate s₁ s r key
  /-- It was alive and has been written since. -/
  | written {ks₁ ks : KeyState} : s₁.alive? key = some ks₁ → s.alive? key = some ks →
      ks.createRevision ≤ r → r < ks.modRevision → Fate s₁ s r key

variable {s₁ s : StoreState} {req : RangeRequest} {r : UInt64} {key : Bytes}

omit [Crates] in
theorem Kept.fate (h : Kept r s₁ s) (key : Bytes) : Fate s₁ s r key := by
  have hthen : s₁.alive? key = s₁.keys[key]? := h.earlier.aliveIn key
  have hnow : s.alive? key = s.keys[key]? := h.later.aliveIn key
  have hgrown := h.grown key
  have hsettled := h.settled key
  generalize hnow? : s.keys[key]? = now? at hgrown
  cases hgrown with
  | same =>
      cases hget : s₁.keys[key]? with
      | none =>
          refine .unborn (hthen.trans hget) ?_
          intro ks hks
          rw [hnow, hnow?, hget] at hks
          cases hks
      | some ks =>
          obtain ⟨hcreate, hmod, -⟩ := hsettled ks hget
          exact .unwritten (hthen.trans hget) (hnow.trans (hnow?.trans hget)) hcreate hmod
  | @updated a ks ha hcreate hlt =>
      obtain ⟨hle, -, -⟩ := hsettled a ha
      exact .written (hthen.trans ha) (hnow.trans hnow?) (hcreate ▸ hle) hlt
  | @born ks hnone hlt =>
      refine .unborn (hthen.trans hnone) ?_
      intro ks' hks'
      rw [hnow, hnow?] at hks'
      cases hks'
      exact hlt

omit [Crates] in
/-- Phase 1 on such a store. -/
theorem Kept.phase1_eq (h : Kept r s₁ s) {ks : KeyState} (hks : s.alive? key = some ks) :
    s.phase1 req r key = if passesRevisionFilters req ks = true ∧ ks.createRevision ≤ r
      then if ks.modRevision ≤ r then .direct else .stale
      else .skip := by
  obtain ⟨hget, -⟩ := aliveIn_eq_some.mp hks
  obtain ⟨hdelete, hrebirth⟩ := h.later key ks hget
  rw [StoreState.phase1, hget]
  simp only [phase1Classify, hdelete, hrebirth]
  by_cases hpass : passesRevisionFilters req ks = true
  · by_cases hcreate : ks.createRevision ≤ r
    · simp [hpass, hcreate, UInt64.not_lt.mpr hcreate]
    · simp [hpass, hcreate, UInt64.not_le.mp hcreate]
  · simp [hpass]

omit [Crates] in
/-- A key that has no entry is skipped. -/
theorem Kept.phase1_of_none (h : Kept r s₁ s) (hks : s.alive? key = none) :
    s.phase1 req r key = .skip := by
  have hget : s.keys[key]? = none := (h.later.aliveIn key).symm.trans hks
  rw [StoreState.phase1, hget]

omit [Crates] in
/-- The WAL is read for a key that was written since and passes the filters as it is now. -/
theorem Kept.stale_iff (h : Kept r s₁ s) : classified s req r .stale ≠ [] ↔
    ∃ key ks₁ ks, WrittenSince s₁ s req r key ks₁ ks ∧ passesRevisionFilters req ks = true := by
  rw [ne_eq, ← List.map_eq_nil_iff (f := (·.1)), ← staleKeys]
  constructor
  · intro hne
    obtain ⟨key, hkey⟩ := List.exists_mem_of_ne_nil _ hne
    obtain ⟨hmatch, hclass⟩ := mem_staleKeys.mp hkey
    -- a key that was not there is skipped, one that was not written since answers directly
    cases h.fate key with
    | unborn hnone hlater =>
        cases hnow : s.alive? key with
        | none => simp [h.phase1_of_none hnow] at hclass
        | some ks => simp [h.phase1_eq hnow, UInt64.not_le.mpr (hlater ks hnow)] at hclass
    | unwritten _ hnow _ hmod =>
        rw [h.phase1_eq hnow, if_pos hmod] at hclass
        split at hclass <;> cases hclass
    | @written ks₁ ks hthen hnow _ hlt =>
        refine ⟨key, ks₁, ks, ⟨hmatch, hthen, hnow, hlt⟩, ?_⟩
        rw [h.phase1_eq hnow] at hclass
        split at hclass
        · next hpass => exact hpass.1
        · cases hclass
  · intro hwritten hnil
    obtain ⟨key, ks₁, ks, hkey, hpass⟩ := hwritten
    have hcreate : ks.createRevision ≤ r := by
      cases h.fate key with
      | unborn hnone _ => simp [hkey.before] at hnone
      | unwritten _ hnow hle _ | written _ hnow hle _ =>
          rw [hkey.now] at hnow
          cases hnow
          exact hle
    have hmem : key ∈ staleKeys s req r := by
      refine mem_staleKeys.mpr ⟨hkey.matches_range, ?_⟩
      rw [h.phase1_eq hkey.now, if_pos ⟨hpass, hcreate⟩, if_neg (UInt64.not_le.mpr hkey.later)]
    rw [hnil] at hmem
    cases hmem

omit [Crates] in
/-- **What is found for a key of the range**: something if it was alive at `r`, and the WAL was
read or the key is as it was then and passes the filters. -/
theorem Kept.found_iff (h : Kept r s₁ s) {walState : ExtTreeMap Bytes Bytes}
    (hfound : CutAt.Found s₁ req walState)
    (hmatch : matchesRange (resolveRange req.key req.rangeEnd) key = true) :
    (∃ b, s.pairAt req r walState key = some b) ↔ ∃ ks₁, s₁.alive? key = some ks₁ ∧
      (classified s req r .stale ≠ [] ∨
        s.alive? key = some ks₁ ∧ ks₁.modRevision ≤ r ∧ passesRevisionFilters req ks₁ = true) := by
  have hwal : walState[key]? = (s₁.alive? key).map KeyState.kvBytes := by
    rw [hfound key, if_pos hmatch]
  have hskip : s.phase1 req r key = .skip → s.pairAt req r walState key
      = if classified s req r .stale = [] then none else (s₁.alive? key).map KeyState.kvBytes := by
    intro hclass
    rw [StoreState.pairAt, hclass, ← hwal]
  cases h.fate key with
  | unborn hnone hlater =>
      have hclass : s.phase1 req r key = .skip := by
        cases hnow : s.alive? key with
        | none => exact h.phase1_of_none hnow
        | some ks =>
            rw [h.phase1_eq hnow, if_neg fun hc => UInt64.not_le.mpr (hlater ks hnow) hc.2]
      simp [hskip hclass, hnone]
  | @unwritten ks hthen hnow hcreate hmod =>
      obtain ⟨hget, -⟩ := aliveIn_eq_some.mp hnow
      by_cases hpass : passesRevisionFilters req ks = true
      · have hclass : s.phase1 req r key = .direct := by
          rw [h.phase1_eq hnow, if_pos ⟨hpass, hcreate⟩, if_pos hmod]
        simp [StoreState.pairAt, hclass, hget, hthen, hnow, hmod, hpass]
      · have hclass : s.phase1 req r key = .skip := by
          rw [h.phase1_eq hnow, if_neg fun hc => hpass hc.1]
        simp [hskip hclass, hthen, hpass]
  -- written since: stale if the entry of now passes, and skipped if not
  | @written ks₁ ks hthen hnow hcreate hlt =>
      have hother : ∀ ks', s.alive? key = some ks' → ¬ ks'.modRevision ≤ r := by
        intro ks' hks'
        rw [hnow] at hks'
        cases hks'
        exact UInt64.not_le.mpr hlt
      by_cases hpass : passesRevisionFilters req ks = true
      · have hclass : s.phase1 req r key = .stale := by
          rw [h.phase1_eq hnow, if_pos ⟨hpass, hcreate⟩, if_neg (UInt64.not_le.mpr hlt)]
        have hstale : classified s req r .stale ≠ [] :=
          h.stale_iff.mpr ⟨key, ks₁, ks, ⟨hmatch, hthen, hnow, hlt⟩, hpass⟩
        simp [StoreState.pairAt, hclass, hwal, hthen, hstale]
      · have hclass : s.phase1 req r key = .skip := by
          rw [h.phase1_eq hnow, if_neg fun hc => hpass hc.1]
        rw [hskip hclass, hthen]
        by_cases hstale : classified s req r .stale = []
        · rw [if_pos hstale]
          refine iff_of_false (by simp) ?_
          intro hsome
          obtain ⟨ks', heq, hor⟩ := hsome
          cases heq
          rcases hor with hne | ⟨hks, hmod, -⟩
          · exact hne hstale
          · exact hother ks₁ hks hmod
        · simp [hstale]

/-! ### Filters then and now -/

/-- The keys are those of the range that were alive then and passed the filters then. -/
def FilteredThen (s₁ : StoreState) (req : RangeRequest) (keys : List Bytes) : Prop :=
  ∀ key, key ∈ keys ↔ matchesRange (resolveRange req.key req.rangeEnd) key = true ∧
    ∃ ks₁, s₁.alive? key = some ks₁ ∧ passesRevisionFilters req ks₁ = true

/-- It makes no difference that the filters are applied to the entries of now: no key that was
written since passes them, now or then; or one passes them now, but every key that was alive
then passed them then. -/
def FiltersAgree (s₁ s : StoreState) (req : RangeRequest) (r : UInt64) : Prop :=
  (∀ key ks₁ ks, WrittenSince s₁ s req r key ks₁ ks →
    passesRevisionFilters req ks = false ∧ passesRevisionFilters req ks₁ = false) ∨
  ((∃ key ks₁ ks, WrittenSince s₁ s req r key ks₁ ks ∧ passesRevisionFilters req ks = true) ∧
    ∀ key ks₁, matchesRange (resolveRange req.key req.rangeEnd) key = true →
      s₁.alive? key = some ks₁ → passesRevisionFilters req ks₁ = true)

omit [Crates] in
/-- What was found, given which keys were. -/
theorem Kept.filteredThen_iff (h : Kept r s₁ s) {keys : List Bytes}
    (hkeys : ∀ key, key ∈ keys ↔ matchesRange (resolveRange req.key req.rangeEnd) key = true ∧
      ∃ ks₁, s₁.alive? key = some ks₁ ∧ (classified s req r .stale ≠ [] ∨
        s.alive? key = some ks₁ ∧ ks₁.modRevision ≤ r ∧ passesRevisionFilters req ks₁ = true)) :
    FilteredThen s₁ req keys ↔ FiltersAgree s₁ s req r := by
  by_cases hstale : classified s req r .stale = []
  · -- phase 1 alone: what is missing was written since
    have hfails : ∀ key ks₁ ks, WrittenSince s₁ s req r key ks₁ ks →
        passesRevisionFilters req ks = false := by
      intro key ks₁ ks hkey
      rw [← Bool.not_eq_true]
      intro hpass
      exact h.stale_iff.mpr ⟨key, ks₁, ks, hkey, hpass⟩ hstale
    constructor
    · intro hexact
      refine .inl fun key ks₁ ks hkey => ⟨hfails key ks₁ ks hkey, ?_⟩
      rw [← Bool.not_eq_true]
      intro hpass
      have hmem := (hexact key).mpr ⟨hkey.matches_range, ks₁, hkey.before, hpass⟩
      obtain ⟨-, ks', hks', hor⟩ := (hkeys key).mp hmem
      rcases hor with hne | ⟨hnow, hmod, -⟩
      · exact hne hstale
      · rw [hkey.now] at hnow
        cases hnow
        exact UInt64.not_le.mpr hkey.later hmod
    · intro hagree key
      rw [hkeys]
      refine and_congr_right fun hmatch => exists_congr fun ks₁ => and_congr_right fun hks₁ => ?_
      constructor
      · intro hor
        rcases hor with hne | ⟨-, -, hpass⟩
        · exact absurd hstale hne
        · exact hpass
      · intro hpass
        cases h.fate key with
        | unborn hnone _ => simp [hks₁] at hnone
        | unwritten hthen hnow _ hmod =>
            rw [hks₁] at hthen
            cases hthen
            exact .inr ⟨hnow, hmod, hpass⟩
        | @written ks₁' ks hthen hnow _ hlt =>
            rw [hks₁] at hthen
            cases hthen
            have hkey : WrittenSince s₁ s req r key ks₁ ks := ⟨hmatch, hks₁, hnow, hlt⟩
            rcases hagree with hfail | ⟨hex, -⟩
            · rw [(hfail key ks₁ ks hkey).2] at hpass
              cases hpass
            · exact absurd hstale (h.stale_iff.mpr hex)
  · -- the merge: all that was alive is found
    obtain ⟨k, k₁, k₂, hk, hpassk⟩ := h.stale_iff.mp hstale
    constructor
    · intro hexact
      refine .inr ⟨⟨k, k₁, k₂, hk, hpassk⟩, ?_⟩
      intro key ks₁ hmatch hks₁
      have hmem := (hkeys key).mpr ⟨hmatch, ks₁, hks₁, .inl hstale⟩
      obtain ⟨-, ks', hks', hpass⟩ := (hexact key).mp hmem
      rw [hks₁] at hks'
      cases hks'
      exact hpass
    · intro hagree key
      have hall : ∀ key ks₁, matchesRange (resolveRange req.key req.rangeEnd) key = true →
          s₁.alive? key = some ks₁ → passesRevisionFilters req ks₁ = true := by
        rcases hagree with hfail | ⟨-, hall⟩
        · rw [(hfail k k₁ k₂ hk).1] at hpassk
          cases hpassk
        · exact hall
      rw [hkeys]
      refine and_congr_right fun hmatch => exists_congr fun ks₁ => and_congr_right fun hks₁ => ?_
      exact iff_of_true (.inl hstale) (hall key ks₁ hmatch hks₁)

/-! ### Historical ranges -/

/-- A request that `range` answers from history, whatever it filters. -/
structure ReadsHistory (s : StoreState) (req : RangeRequest) : Prop where
  key_ne : req.key ≠ []
  revision_pos : 0 < req.revision
  not_compacted : s.compactRev ≤ req.revision.toUInt64
  reached : req.revision.toUInt64 ≤ s.currentRevision
  not_inverted : (resolveRange req.key req.rangeEnd).inverted = false

/-- A response made of these keys: it counts them, and it has them all unless it is asked for
the count or has a limit. -/
structure RangeResponse.Shows (resp : RangeResponse) (req : RangeRequest) (keys : List Bytes) :
    Prop where
  nodup : keys.Nodup
  count : resp.count = Int64.ofNat keys.length
  subset : ∀ k ∈ resp.keys, k ∈ keys.map some
  all : req.countOnly = false → req.limit ≤ 0 → resp.keys.Perm (keys.map some)

variable [LawfulCrates]

/-- A page shows the keys of its pairs. -/
theorem shows_page (req : RangeRequest) (header : ResponseHeader) {pairs : List (Bytes × Bytes)}
    (hnodup : (pairs.map (·.1)).Nodup) (hlen : pairs.length ≤ 2 ^ 32)
    (hnamed : ∀ e ∈ pairs, e.1.length < 2 ^ 32 ∧ blobKey e.2 = some e.1) :
    (page req header pairs).Shows req (pairs.map (·.1)) := by
  have hblobs : (pairs.map fun e => responseKv req e.1 e.2).map blobKey
      = (pairs.map (·.1)).map some := by
    rw [List.map_map, List.map_map]
    exact List.map_congr_left fun e he =>
      blobKey_responseKv req (hnamed e he).1 (hnamed e he).2
  have hlen' : (pairs.map fun e => responseKv req e.1 e.2).length ≤ 2 ^ 32 := by
    rwa [List.length_map]
  by_cases hcount : req.countOnly = true
  · refine ⟨hnodup, ?_, ?_, ?_⟩
    · simp [page, hcount]
    · simp [page, hcount, RangeResponse.keys]
    · simp [hcount]
  · have hcount := Bool.eq_false_iff.mpr hcount
    have hkvs := kvs_page hcount header (show pairs.length < 2 ^ 63 by omega)
    refine ⟨hnodup, ?_, ?_, ?_⟩
    · simp [page, hcount]
    · rw [RangeResponse.keys, hkvs, ← hblobs]
      intro k hk
      obtain ⟨kv, hkv, rfl⟩ := List.mem_map.mp hk
      exact List.mem_map_of_mem (mem_of_mem_sortKvs hlen' (truncated_subset _ _ hkv))
    · intro _ hlimit
      have hpage : req.pageLimit = 0 := if_neg (Int64.not_lt.mpr hlimit)
      rw [RangeResponse.keys, hkvs, hpage, truncated, if_pos rfl, ← hblobs]
      exact (sortKvs_perm hlen' _ _ (.inl rfl)).map blobKey

/-- What is found for a key is a blob that names it. -/
theorem CutAt.named_pairAt {ws vs : List Write} (h : CutAt r s₁ s ws vs)
    {walState : ExtTreeMap Bytes Bytes} (hfound : CutAt.Found s₁ req walState) {b : Bytes}
    (hb : s.pairAt req r walState key = some b) :
    key.length < 2 ^ 32 ∧ blobKey b = some key := by
  have hwal : walState[key]? = some b → key.length < 2 ^ 32 ∧ blobKey b = some key := by
    intro hget
    obtain ⟨-, ks₁, hks₁, rfl⟩ := hfound.alive hget
    exact h.named.1 key ks₁ (aliveIn_eq_some.mp hks₁).1
  unfold StoreState.pairAt at hb
  split at hb
  · obtain ⟨ks, hks, rfl⟩ := Option.map_eq_some_iff.mp hb
    exact h.named.2 key ks hks
  · rcases Option.or_eq_some_iff.mp hb with hget | ⟨-, halive⟩
    · exact hwal hget
    · obtain ⟨ks, hks, rfl⟩ := Option.map_eq_some_iff.mp halive
      exact h.named.2 key ks (aliveIn_eq_some.mp hks).1
  · split at hb
    · cases hb
    · exact hwal hb

/-- **When revision filters act on the entries of the revision asked for**: in a run that deletes
nothing, exactly when it makes no difference that they are applied to those of now. -/
theorem filters_on_history {qs : List Request} {s : StoreState}
    (hserve : serve fresh qs = some s) (hlt : qs.length + 1 < 2 ^ 64)
    (hfit : ∀ rec ∈ s.wal.log, rec.Fits) (hsize : s.keys.size ≤ 2 ^ 32)
    (hkept : DeletesNothing s) {req : RangeRequest} (hreq : ReadsHistory s req) :
    (∃ s₁, LiveAt qs req.revision.toUInt64 s₁) ∧
    ∀ s₁, LiveAt qs req.revision.toUInt64 s₁ → ∃ resp keys, range s req = .ok resp ∧
      resp.Shows req keys ∧
      (FilteredThen s₁ req keys ↔ FiltersAgree s₁ s req req.revision.toUInt64) := by
  refine ⟨exists_liveAt hserve hlt hreq.reached, ?_⟩
  intro s₁ hs₁
  obtain ⟨ws, vs, hcut, hlog⟩ := CutAt.exists_cut hserve hlt hfit hs₁
  -- nothing was deleted since, so the keys alive then are still alive or were written later
  have h : Kept req.revision.toUInt64 s₁ s := by
    refine hcut.kept fun w hw => hkept _ ?_
    rw [hlog]
    exact List.mem_map_of_mem hw
  obtain ⟨walState, hscan, hfound⟩ := hcut.scanWalRange_eq req.key req.rangeEnd
  obtain ⟨pairs, hpairs⟩ : ∃ pairs, historicalPairs s req req.revision.toUInt64 = .ok pairs :=
    ⟨_, historicalPairs_eq hreq.not_inverted hscan⟩
  have hkeys : ∀ key, key ∈ pairs.map (·.1) ↔
      matchesRange (resolveRange req.key req.rangeEnd) key = true ∧
        ∃ b, s.pairAt req req.revision.toUInt64 walState key = some b := by
    intro key
    simp only [List.mem_map, Prod.exists, exists_and_right, exists_eq_right,
      mem_historicalPairs hreq.not_inverted hscan hpairs, exists_and_left]
  have hnodup : (pairs.map (·.1)).Nodup := by
    refine List.pairwise_map.mpr
      ((ascending_historicalPairs hreq.not_inverted hscan hpairs).imp ?_)
    intro a b hlt heq
    rw [heq, bytesLt_irrefl] at hlt
    cases hlt
  -- the keys of the answer are keys of the map now
  have hlen : pairs.length ≤ 2 ^ 32 := by
    have hsub : pairs.map (·.1) ⊆ s.keys.toList.map (·.1) := by
      intro key hkey
      obtain ⟨hmatch, hb⟩ := (hkeys key).mp hkey
      obtain ⟨ks₁, hks₁, -⟩ := (h.found_iff hfound hmatch).mp hb
      obtain ⟨ks, hget, -⟩ := hcut.covers_of_alive hks₁
      exact List.mem_map.mpr
        ⟨(key, ks), ExtTreeMap.mem_toList_iff_getElem?_eq_some.mpr hget, rfl⟩
    have hle := (hnodup.subperm hsub).length_le
    rw [List.length_map, List.length_map, ExtTreeMap.length_toList] at hle
    exact hle.trans hsize
  refine ⟨_, pairs.map (·.1), ?_, shows_page req (historicalHeader req.revision.toUInt64) hnodup
    hlen ?_, h.filteredThen_iff ?_⟩
  · rw [range_eq_historical hreq.key_ne hreq.revision_pos hreq.not_compacted hreq.reached,
      rangeHistorical_eq_page, hpairs]
    · rfl
    · intro pairs' hpairs'
      rw [hpairs] at hpairs'
      cases hpairs'
      omega
  · intro e he
    obtain ⟨-, hb⟩ := (mem_historicalPairs hreq.not_inverted hscan hpairs).mp he
    exact hcut.named_pairAt hfound hb
  · intro key
    rw [hkeys]
    exact and_congr_right fun hmatch => h.found_iff hfound hmatch

end

/-- Two keys at revision 2, unless they were written after revision 1. -/
def filteredRange : RangeRequest :=
  { key := [1], rangeEnd := [3], revision := 2, maxModRevision := 1 }

/-- The second key fails that filter both then and now. -/
theorem filters_on_history_updated :
    ∃ s s₁ resp keys, serve fresh [.put { key := [1], value := [4] },
        .put { key := [2], value := [5] }, .put { key := [2], value := [6] }] = some s ∧
      LiveAt [.put { key := [1], value := [4] }, .put { key := [2], value := [5] },
        .put { key := [2], value := [6] }] 2 s₁ ∧
      range s filteredRange = .ok resp ∧ resp.Shows filteredRange keys ∧
      FilteredThen s₁ filteredRange keys := by
  have hrun : ((serve fresh [.put { key := [1], value := [4] },
      .put { key := [2], value := [5] }, .put { key := [2], value := [6] }]).any fun s =>
        (serve fresh [.put { key := [1], value := [4] },
          .put { key := [2], value := [5] }]).any fun s₁ =>
            decide ((∀ rec ∈ s.wal.log, rec.Fits ∧ rec.deleted = false) ∧
              s.keys.size ≤ 2 ^ 32 ∧ s.compactRev = 0 ∧ s.currentRevision = 3 ∧
              s₁.currentRevision = 2 ∧
              (∀ e ∈ s.keys.toList, 2 < e.2.modRevision →
                passesRevisionFilters filteredRange e.2 = false) ∧
              (∀ e ∈ s₁.keys.toList, e.1 = [1] ∨
                passesRevisionFilters filteredRange e.2 = false) ∧
              (∀ e ∈ s.keys.toList, 2 < e.2.modRevision → e.1 ≠ [1]))) = true := by
    decide +kernel
  obtain ⟨s, hs, hrun⟩ := (Option.any_eq_true _ _).mp hrun
  obtain ⟨s₁, hs₁, hfacts⟩ := (Option.any_eq_true _ _).mp hrun
  obtain ⟨hlog, hsize, hcompact, hcur, hcur₁, hnow, hthen, hother⟩ := of_decide_eq_true hfacts
  have hreq : ReadsHistory s filteredRange :=
    ⟨by decide, by decide, by rw [hcompact]; decide, by rw [hcur]; decide, by decide⟩
  have hlive : LiveAt [.put { key := [1], value := [4] }, .put { key := [2], value := [5] },
      .put { key := [2], value := [6] }] 2 s₁ := ⟨[_, _], _, rfl, hs₁, hcur₁⟩
  obtain ⟨resp, keys, hresp, hshows, hiff⟩ :=
    (filters_on_history hs (by decide) (fun rec hrec => (hlog rec hrec).1) hsize
      (fun rec hrec => (hlog rec hrec).2) hreq).2 s₁ hlive
  refine ⟨s, s₁, resp, keys, hs, hlive, hresp, hshows, hiff.mpr (.inl ?_)⟩
  intro key ks₁ ks hkey
  have hlater : 2 < ks.modRevision := hkey.later
  have hmem : (key, ks) ∈ s.keys.toList :=
    ExtTreeMap.mem_toList_iff_getElem?_eq_some.mpr (aliveIn_eq_some.mp hkey.now).1
  have hmem₁ : (key, ks₁) ∈ s₁.keys.toList :=
    ExtTreeMap.mem_toList_iff_getElem?_eq_some.mpr (aliveIn_eq_some.mp hkey.before).1
  have hne : key ≠ [1] := hother (key, ks) hmem hlater
  exact ⟨hnow (key, ks) hmem hlater, (hthen (key, ks₁) hmem₁).resolve_left hne⟩

/-- A run that deletes nothing, after which a range at an earlier revision has the key `[1]` where
the filters at that revision say otherwise, or the other way round. -/
def Misfilters (qs : List Request) (req : RangeRequest) : Prop :=
  ∃ s s₁ resp, serve fresh qs = some s ∧ DeletesNothing s ∧ ReadsHistory s req ∧
    LiveAt qs req.revision.toUInt64 s₁ ∧ range s req = .ok resp ∧
    matchesRange (resolveRange req.key req.rangeEnd) [1] = true ∧
    ¬ (some [1] ∈ resp.keys ↔
      ∃ ks₁, s₁.alive? [1] = some ks₁ ∧ passesRevisionFilters req ks₁ = true)

/-- The condition is needed: a key is missing when its update puts it outside the filters, and
one that was outside comes back when its update puts it inside. -/
theorem filters_act_on_current :
    Misfilters [.put { key := [1], value := [2] }, .put { key := [1], value := [3] }]
      { key := [1], revision := 1, maxModRevision := 1 } ∧
    Misfilters [.put { key := [1], value := [4] }, .put { key := [2], value := [5] },
        .put { key := [1], value := [6] }]
      { key := [1], rangeEnd := [3], revision := 2, minModRevision := 2 } := by
  have hmis : ∀ (qs : List Request) (q : Request) (req : RangeRequest),
      ((serve fresh (qs ++ [q])).any fun s => (serve fresh qs).any fun s₁ =>
        decide ((∀ rec ∈ s.wal.log, rec.deleted = false) ∧ req.key ≠ [] ∧ 0 < req.revision ∧
          s.compactRev ≤ req.revision.toUInt64 ∧ req.revision.toUInt64 ≤ s.currentRevision ∧
          (resolveRange req.key req.rangeEnd).inverted = false ∧
          s₁.currentRevision = req.revision.toUInt64 ∧
          matchesRange (resolveRange req.key req.rangeEnd) [1] = true) &&
        (range s req).toOption.any fun resp =>
          decide (some [1] ∈ resp.keys) != (s₁.alive? [1]).any (passesRevisionFilters req))
          = true → Misfilters (qs ++ [q]) req := by
    intro qs q req hrun
    obtain ⟨s, hs, hrun⟩ := (Option.any_eq_true _ _).mp hrun
    obtain ⟨s₁, hs₁, hrun⟩ := (Option.any_eq_true _ _).mp hrun
    obtain ⟨hfacts, hrun⟩ := (Bool.and_eq_true _ _).mp hrun
    obtain ⟨hkept, hkey, hpos, hcompact, hreached, hinv, hcur, hmatch⟩ := of_decide_eq_true hfacts
    obtain ⟨resp, hresp, hne⟩ := (Option.any_eq_true _ _).mp hrun
    refine ⟨s, s₁, resp, hs, hkept, ⟨hkey, hpos, hcompact, hreached, hinv⟩,
      ⟨qs, [q], rfl, hs₁, hcur⟩, Prog.ok_of_toOption hresp, hmatch, ?_⟩
    rw [← Option.any_eq_true]
    intro hiff
    rw [bne_iff_ne, ne_eq, Bool.eq_iff_iff, decide_eq_true_iff] at hne
    exact hne hiff
  exact ⟨hmis [_] _ _ (by decide +kernel), hmis [_, _] _ _ (by decide +kernel)⟩

end Rudurru
