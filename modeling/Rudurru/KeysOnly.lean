import Rudurru.Discard
import Rudurru.Storage.Pages

/-!
# Rudurru.KeysOnly

What `keys_only` does to a range. The blobs are stripped before they are sorted, and the sort
reads its fields from them: with `keys_only` every field it could sort by is zero or empty, so
the keys come in key order, and a limit keeps others than it would have kept. The response has
the same keys exactly where the pairs it answers with are in the order of the field already
(`keys_only_keeps_keys`).

A page is compared with a page. Both requests find the same pairs, since `keys_only` plays no part
in the search; the blobs of a running server are `encode_kv` blobs of their keys (`Encoded`), so the
pairs can be told apart by key. The sort then has no choice on either side: the full pairs come in
the order of the field and the key, the stripped ones in the order of the key. With a limit the two
answers keep the same keys exactly if the first pairs of the walk are those that the sort puts in
front (`SliceOps.take_sortUnstable`).
-/

namespace Rudurru

open Std (ExtTreeMap TransCmp OrientedCmp)

section

variable [Crates]

/-! ### Blobs of `encode_kv`

The sort reads fields from blobs, so the blobs must be known: those of a running server are
encodings of their keys, and a stripped one is the encoding of the key and zeros.
-/

/-- A blob that `encode_kv` made for a key, of lengths that the format holds. The fields beside the
key are left open, since the store may have put anything there. -/
structure Encodes (key blob : Bytes) : Prop where
  key_length : key.length < 2 ^ 32
  made : ∃ d : KeyValue, d.key = key ∧ d.value.length < 2 ^ 32 ∧ blob = d.encode

theorem Encodes.blobKey [LawfulCrates] {key blob : Bytes} (h : Encodes key blob) :
    blobKey blob = some key := by
  obtain ⟨hkey, d, rfl, hvalue, rfl⟩ := h
  rw [Rudurru.blobKey, KeyValue.encode, decodeKeyValue_encodeKv _ _ _ _ _ _ hkey hvalue]
  rfl

omit [Crates] in
/-- Such a blob can be patched. -/
theorem Encodes.patches {key blob : Bytes} (h : Encodes key blob) (rev : UInt64) :
    (withModRevision blob rev).isSome = true := by
  obtain ⟨hkey, d, rfl, -, rfl⟩ := h
  rw [KeyValue.encode, withModRevision_encodeKv rev hkey]
  rfl

/-- The value that a blob is sorted by. -/
def blobField (target : Int32) (blob : Bytes) : SortValue := (sortEntry target blob 0).value

omit [Crates] in
theorem Encodes.sortEntry {key blob : Bytes} (h : Encodes key blob) (target : Int32) (i : Nat) :
    sortEntry target blob i = { value := blobField target blob, key, idx := UInt32.ofNat i } := by
  obtain ⟨hkey, d, rfl, hvalue, rfl⟩ := h
  simp only [blobField, Rudurru.sortEntry, KeyValue.encode, parseKv_encodeKv _ _ _ _ hkey hvalue]

/-- The blob of `keys_only`. -/
def strippedBlob (key : Bytes) : Bytes := (encodeKv key [] 0 0 0 0).1

omit [Crates] in
theorem encodes_strippedBlob {key : Bytes} (h : key.length < 2 ^ 32) :
    Encodes key (strippedBlob key) :=
  ⟨h, { key, createRevision := 0, modRevision := 0, version := 0, value := [], lease := 0 }, rfl,
    by simp, rfl⟩

omit [Crates] in
theorem blobField_strippedBlob {key : Bytes} (h : key.length < 2 ^ 32) (target : Int32) :
    blobField target (strippedBlob key) = if target = 4 then .bytes [] else .int 0 := by
  rw [blobField, Rudurru.sortEntry, strippedBlob, parseKv_encodeKv _ _ _ _ h (by simp)]
  dsimp only
  by_cases hcreate : target = 2
  · rw [hcreate]
    rfl
  by_cases hversion : target = 1
  · rw [hversion]
    rfl
  by_cases hvalue : target = 4
  · rw [hvalue]
    rfl
  · rw [if_neg hcreate, if_neg hversion, if_neg hvalue, if_neg hvalue]
    rfl

/-! ### The order of pairs

Pairs of a range come in the order of their keys, and no two of them have the same.
-/

/-- The order of the pairs by the target field, in a direction. -/
def compareField (descending : Bool) (target : Int32) (a b : Bytes × Bytes) : Ordering :=
  let ord := cmpSortValue (blobField target a.2) (blobField target b.2)
  if descending then ord.swap else ord

/-- With ties broken by key. -/
def comparePairs (descending : Bool) (target : Int32) (a b : Bytes × Bytes) : Ordering :=
  cmpEntry descending { value := blobField target a.2, key := a.1, idx := 0 }
    { value := blobField target b.2, key := b.1, idx := 0 }

instance (descending : Bool) (target : Int32) : TransCmp (comparePairs descending target) :=
  SliceOps.transCmp_comap (cmpEntry descending) fun e : Bytes × Bytes =>
    { value := blobField target e.2, key := e.1, idx := 0 }

/-- Pairs as a range finds them. The bound on their number is that of the positions in a sort. -/
structure Paired (pairs : List (Bytes × Bytes)) : Prop where
  encodes : ∀ e ∈ pairs, Encodes e.1 e.2
  ascending : pairs.Pairwise fun a b => bytesLt a.1 b.1 = true
  length_le : pairs.length ≤ 2 ^ 32

omit [Crates] in
theorem Paired.comparesAs {pairs : List (Bytes × Bytes)} (h : Paired pairs) (descending : Bool)
    (target : Int32) :
    ComparesAs descending target (fun e : Bytes × Bytes => e.2) (comparePairs descending target)
      pairs := by
  intro a ha b hb i j
  rw [(h.encodes a ha).sortEntry, (h.encodes b hb).sortEntry]
  rfl

omit [Crates] in
theorem Paired.nodup {pairs : List (Bytes × Bytes)} (h : Paired pairs) :
    (pairs.map (·.1)).Nodup := by
  refine List.pairwise_map.mpr (h.ascending.imp ?_)
  intro a b hlt heq
  rw [heq, bytesLt_irrefl] at hlt
  cases hlt

omit [Crates] in
theorem Paired.distinguishes {pairs : List (Bytes × Bytes)} (h : Paired pairs) (descending : Bool)
    (target : Int32) : SliceOps.Distinguishes (comparePairs descending target) pairs := by
  intro a ha b hb hab hba
  refine List.inj_on_of_nodup_map h.nodup ha hb ?_
  have heq : comparePairs descending target a b = .eq := by
    have hswap : comparePairs descending target b a = (comparePairs descending target a b).swap :=
      OrientedCmp.eq_swap
    rw [hswap] at hba
    cases hcmp : comparePairs descending target a b with
    | eq => rfl
    | lt =>
        rw [hcmp] at hba
        cases hba
    | gt =>
        rw [hcmp] at hab
        cases hab
  have heq' : (cmpSortValue (blobField target a.2) (blobField target b.2)).then
      (compare a.1 b.1) = .eq := by
    cases descending with
    | false => exact heq
    | true => exact Ordering.swap_eq_eq.mp heq
  exact Std.LawfulEqCmp.eq_of_compare (Ordering.then_eq_eq.mp heq').2

/-- The pairs in the order of their keys, or in the opposite order. -/
def directed (descending : Bool) (pairs : List (Bytes × Bytes)) : List (Bytes × Bytes) :=
  if descending then pairs.reverse else pairs

omit [Crates] in
theorem directed_perm (descending : Bool) (pairs : List (Bytes × Bytes)) :
    (directed descending pairs).Perm pairs := by
  cases descending with
  | false => exact .refl _
  | true => exact List.reverse_perm pairs

omit [Crates] in
/-- Against the pairs that come later by key, the field decides. -/
theorem Paired.pairwise_directed {pairs : List (Bytes × Bytes)} (h : Paired pairs)
    (descending : Bool) (target : Int32) :
    (directed descending pairs).Pairwise fun a b =>
      (comparePairs descending target a b).isLE ↔ (compareField descending target a b).isLE := by
  cases descending with
  | false =>
      refine h.ascending.imp ?_
      intro a b hlt
      rw [bytesLt, beq_iff_eq] at hlt
      show ((cmpSortValue _ _).then (compare a.1 b.1)).isLE = true ↔ _
      rw [hlt]
      show _ ↔ (cmpSortValue _ _).isLE = true
      cases cmpSortValue (blobField target a.2) (blobField target b.2) <;> decide
  | true =>
      refine List.pairwise_reverse.mpr (h.ascending.imp ?_)
      intro b a hlt
      rw [bytesLt, beq_iff_eq] at hlt
      have hgt : compare a.1 b.1 = .gt := OrientedCmp.gt_of_lt hlt
      show ((cmpSortValue _ _).then (compare a.1 b.1)).swap.isLE = true ↔ _
      rw [hgt]
      show _ ↔ (cmpSortValue _ _).swap.isLE = true
      cases cmpSortValue (blobField target a.2) (blobField target b.2) <;> decide

/-! ### The keys of a page -/

/-- The keys of a response. -/
def RangeResponse.keys (resp : RangeResponse) : List (Option Bytes) := resp.kvs.map blobKey

/-- The request asks for an order that the blobs decide. -/
def RangeRequest.Sorts (req : RangeRequest) : Prop :=
  ¬ (req.sortOrder ≠ 1 ∧ req.sortOrder ≠ 2) ∧ Sortable req.sortTarget

/-- The pairs in the order of a page. -/
def sorted (req : RangeRequest) (pairs : List (Bytes × Bytes)) : List (Bytes × Bytes) :=
  pairs.insertionSort fun a b => (comparePairs (req.sortOrder = 2) req.sortTarget a b).isLE

theorem Paired.map_blobKey [LawfulCrates] {pairs l : List (Bytes × Bytes)} (h : Paired pairs)
    (hl : l ⊆ pairs) : (l.map (·.2)).map blobKey = (l.map (·.1)).map some := by
  rw [List.map_map, List.map_map]
  exact List.map_congr_left fun e he => (h.encodes e (hl he)).blobKey

omit [Crates] in
theorem truncated_subset {α : Type} (n : Nat) (l : List α) : truncated n l ⊆ l := by
  unfold truncated
  split
  · exact List.Subset.refl l
  · exact (List.take_sublist n l).subset

omit [Crates] in
theorem truncated_map {α β : Type} (n : Nat) (f : α → β) (l : List α) :
    truncated n (l.map f) = (truncated n l).map f := by
  unfold truncated
  split
  · rfl
  · exact (List.map_take ..).symm

/-- The keys of a page that is sorted. -/
theorem keys_sorted [LawfulCrates] {pairs : List (Bytes × Bytes)} (h : Paired pairs)
    {req : RangeRequest} (hsorts : req.Sorts) (n : Nat) :
    (truncated n (sortKvs (pairs.map (·.2)) req.sortOrder req.sortTarget n)).map blobKey
      = ((truncated n (sorted req pairs)).map (·.1)).map some := by
  have hlen : (sorted req pairs).length = pairs.length := List.length_insertionSort _ _
  have hsub : truncated n (sorted req pairs) ⊆ pairs := fun e he =>
    (List.mem_insertionSort _).mp (truncated_subset n _ he)
  rw [← h.map_blobKey hsub, sortKvs_map hsorts.1 hsorts.2 (h.comparesAs _ _) h.length_le,
    truncated_map, ← hlen]
  exact congrArg (fun l : List (Bytes × Bytes) => (l.map (·.2)).map blobKey) (truncated_sortCut n)

/-- Stripped pairs. -/
def strip (pairs : List (Bytes × Bytes)) : List (Bytes × Bytes) :=
  pairs.map fun e => (e.1, strippedBlob e.1)

omit [Crates] in
theorem map_fst_strip (pairs : List (Bytes × Bytes)) :
    (strip pairs).map (·.1) = pairs.map (·.1) := by
  rw [strip, List.map_map]
  rfl

omit [Crates] in
theorem Paired.strip {pairs : List (Bytes × Bytes)} (h : Paired pairs) : Paired (strip pairs) where
  encodes := by
    intro e he
    obtain ⟨d, hd, rfl⟩ := List.mem_map.mp he
    exact encodes_strippedBlob (h.encodes d hd).key_length
  ascending := List.pairwise_map.mpr h.ascending
  length_le := by
    rw [Rudurru.strip, List.length_map]
    exact h.length_le

omit [Crates] in
/-- **Stripped pairs are sorted by key.** -/
theorem sorted_strip {pairs : List (Bytes × Bytes)} (h : Paired pairs) (req : RangeRequest) :
    sorted req (strip pairs) = directed (req.sortOrder = 2) (strip pairs) := by
  refine (SliceOps.insertion _).eq_sortUnstable (h.strip.distinguishes _ _)
    (directed_perm _ _) ?_
  refine List.Pairwise.imp_of_mem ?_ (h.strip.pairwise_directed (req.sortOrder = 2) req.sortTarget)
  intro a b ha hb hiff
  refine hiff.mpr ?_
  have hfield : ∀ e ∈ directed (decide (req.sortOrder = 2)) (strip pairs),
      blobField req.sortTarget e.2 = if req.sortTarget = 4 then .bytes [] else .int 0 := by
    intro e he
    obtain ⟨d, hd, rfl⟩ := List.mem_map.mp ((directed_perm _ _).mem_iff.mp he)
    exact blobField_strippedBlob (h.encodes d hd).key_length _
  have hsame : cmpSortValue (blobField req.sortTarget a.2) (blobField req.sortTarget b.2)
      = .eq := by
    rw [hfield a ha, hfield b hb]
    split <;> decide
  rw [compareField, hsame]
  split <;> rfl

/-- Without an order to sort by, the blobs have no part in it. -/
theorem keys_unsorted [LawfulCrates] {pairs : List (Bytes × Bytes)} (h : Paired pairs)
    {req : RangeRequest} (hsorts : ¬ req.Sorts) (n : Nat) :
    (truncated n (sortKvs (pairs.map (·.2)) req.sortOrder req.sortTarget n)).map blobKey
      = ((truncated n (directed (req.sortOrder = 2 ∧ req.sortTarget = 0) pairs)).map (·.1)).map
          some := by
  have hsort : sortKvs (pairs.map (·.2)) req.sortOrder req.sortTarget n
      = (directed (req.sortOrder = 2 ∧ req.sortTarget = 0) pairs).map (·.2) := by
    by_cases horder : req.sortOrder ≠ 1 ∧ req.sortOrder ≠ 2
    · rw [sortKvs, if_pos horder, directed, if_neg (by simp [horder.2])]
    by_cases hkey : req.sortTarget = 0
    · rw [sortKvs, if_neg horder, if_pos hkey]
      by_cases hdescend : req.sortOrder = 2
      · rw [if_pos hdescend, directed, if_pos (by simp [hdescend, hkey]), List.map_reverse]
      · rw [if_neg hdescend, directed, if_neg (by simp [hdescend])]
    · have hunknown : req.sortTarget ≠ 2 ∧ req.sortTarget ≠ 3 ∧ req.sortTarget ≠ 1 ∧
          req.sortTarget ≠ 4 := by
        by_contra hfield
        exact hsorts ⟨horder, hkey, hfield⟩
      rw [sortKvs, if_neg horder, if_neg hkey, if_pos hunknown, directed, if_neg (by simp [hkey])]
  rw [hsort, truncated_map]
  exact h.map_blobKey fun e he => (directed_perm _ _).mem_iff.mp (truncated_subset n _ he)

/-- `keys_only` leaves the keys of a page alone: there is nothing to sort, or the pairs that make
the page, in the order of their keys, are in the order of the field as well, with no pair after
them that the field puts before one of them. -/
def KeepsKeys (req : RangeRequest) (pairs : List (Bytes × Bytes)) : Prop :=
  req.countOnly = true ∨ ¬ req.Sorts ∨
    SliceOps.Leads (compareField (req.sortOrder = 2) req.sortTarget)
      (if req.pageLimit = 0 then pairs.length else req.pageLimit)
      (directed (req.sortOrder = 2) pairs)

omit [Crates] in
theorem map_inj_of_injOn {α β : Type} {f : α → β} {l l' : List α}
    (h : ∀ a ∈ l, ∀ b ∈ l', f a = f b → a = b) (heq : l.map f = l'.map f) : l = l' := by
  induction l generalizing l' with
  | nil => exact (List.map_eq_nil_iff.mp heq.symm).symm
  | cons a l ih =>
      cases l' with
      | nil => cases heq
      | cons b l' =>
          obtain ⟨hab, hrest⟩ := List.cons.inj heq
          rw [h a (by simp) b (by simp) hab,
            ih (fun c hc d hd => h c (by simp [hc]) d (by simp [hd])) hrest]

omit [Crates] in
theorem truncated_eq_take {α : Type} (n : Nat) {l : List α} {m : Nat} (hm : l.length = m) :
    truncated n l = l.take (if n = 0 then m else n) := by
  unfold truncated
  split
  · rw [← hm, List.take_length]
  · rfl

omit [Crates] in
theorem strip_directed (descending : Bool) (pairs : List (Bytes × Bytes)) :
    directed descending (strip pairs) = strip (directed descending pairs) := by
  cases descending with
  | false => rfl
  | true => exact (List.map_reverse ..).symm

/-- **When a page keeps its keys.** Without a sort order both pages are the beginning of the walk.
With one, the stripped page is still the beginning of the walk, or of the walk backwards, and the
full page is that of the sorted pairs. -/
theorem keys_page_iff [LawfulCrates] {pairs : List (Bytes × Bytes)} (h : Paired pairs)
    (req : RangeRequest) (header : ResponseHeader) :
    (page { req with keysOnly := true } header pairs).keys
        = (page { req with keysOnly := false } header pairs).keys ↔ KeepsKeys req pairs := by
  unfold KeepsKeys
  by_cases hcount : req.countOnly = true
  · refine iff_of_true ?_ (.inl hcount)
    simp only [page, RangeResponse.keys, if_pos hcount]
  have hcount := Bool.eq_false_iff.mpr hcount
  have hlen : pairs.length < 2 ^ 63 := by
    have := h.length_le
    omega
  have hkvs : (page { req with keysOnly := false } header pairs).kvs
      = truncated req.pageLimit
          (sortKvs (pairs.map (·.2)) req.sortOrder req.sortTarget req.pageLimit) :=
    @kvs_page { req with keysOnly := false } hcount header _ hlen
  have hkvs_stripped : (page { req with keysOnly := true } header pairs).kvs
      = truncated req.pageLimit
          (sortKvs ((strip pairs).map (·.2)) req.sortOrder req.sortTarget req.pageLimit) := by
    refine (@kvs_page { req with keysOnly := true } hcount header _ hlen).trans ?_
    rw [strip, List.map_map]
    rfl
  rw [RangeResponse.keys, RangeResponse.keys, hkvs, hkvs_stripped, hcount]
  simp only [Bool.false_eq_true, false_or]
  -- stripped blobs have equal fields, so their keys alone order them, as in the walk
  by_cases hsorts : req.Sorts
  · have hstripped := keys_sorted h.strip hsorts req.pageLimit
    have hfull := keys_sorted h hsorts req.pageLimit
    have hkeys : (truncated req.pageLimit (sorted req (strip pairs))).map (·.1)
        = (truncated req.pageLimit (directed (req.sortOrder = 2) pairs)).map (·.1) := by
      rw [sorted_strip h, strip_directed, strip, truncated_map, List.map_map]
      rfl
    rw [hkeys] at hstripped
    refine Iff.trans (show _ ↔ (truncated req.pageLimit (directed (req.sortOrder = 2) pairs))
      = truncated req.pageLimit (sorted req pairs) from ?_) ?_
    · refine Iff.trans (Eq.congr hstripped hfull) ⟨fun heq => ?_, fun heq => by rw [heq]⟩
      refine map_inj_of_injOn ?_ (List.map_injective_iff.mpr (Option.some_injective _) heq)
      intro a ha b hb
      refine List.inj_on_of_nodup_map h.nodup ?_ ?_
      · exact (directed_perm _ _).mem_iff.mp (truncated_subset _ _ ha)
      · exact (List.mem_insertionSort _).mp (truncated_subset _ _ hb)
    · -- the first `limit` of the sort are those of the walk: the rest is cut off either way
      have hdirected : (directed (req.sortOrder = 2) pairs).length = pairs.length :=
        (directed_perm _ _).length_eq
      have hsame : sorted req pairs = (SliceOps.insertion _).sortUnstable
          (comparePairs (req.sortOrder = 2) req.sortTarget)
          (directed (req.sortOrder = 2) pairs) := by
        refine (SliceOps.eq_sortUnstable _
          ((h.distinguishes _ _).perm (directed_perm _ _)) ?_ ?_).symm
        · exact (List.perm_insertionSort _ _).trans (directed_perm _ _).symm
        · exact SliceOps.pairwise_insertionSort _ _
      rw [truncated_eq_take _ hdirected,
        truncated_eq_take _ (show (sorted req pairs).length = _ from List.length_insertionSort _ _),
        eq_comm, hsame,
        SliceOps.take_sortUnstable _ ((h.distinguishes _ _).perm (directed_perm _ _)),
        SliceOps.leads_congr (h.pairwise_directed _ _)]
      simp [hsorts]
  · refine iff_of_true ?_ (.inl hsorts)
    refine (keys_unsorted h.strip hsorts req.pageLimit).trans (Eq.trans ?_
      (keys_unsorted h hsorts req.pageLimit).symm)
    rw [strip_directed, strip, truncated_map]
    exact congrArg (List.map some) (map_fst_strip _)

/-! ### The blobs of a running server

Entries get their blobs from puts, from records and from snapshots; all three are `encode_kv` blobs.
-/

/-- Every entry has a blob that `encode_kv` made for its key. -/
def Blobs (K : Keyspace) : Prop :=
  ∀ (key : Bytes) (ks : KeyState), K.keys[key]? = some ks → Encodes key ks.kvBytes

/-- A record that carries such a blob, unless it deletes its key. -/
structure KvWalRecord.Carries (rec : KvWalRecord) : Prop where
  wellFormed : rec.WellFormed
  blob : ∃ key, rec.key = some key ∧ (rec.deleted = false → Encodes key rec.kvBytes)

omit [Crates] in
theorem blobs_empty : Blobs .empty := by
  intro key ks hks
  simp [Keyspace.empty] at hks

theorem encodes_new {flags : UInt8} {key value : Bytes} {c m v l : Int64}
    (h : (KvWalRecord.new flags key value c m v l).Fits) :
    Encodes key (KvWalRecord.new flags key value c m v l).kvBytes := by
  have hsize := h.size_lt
  have hvalue := value_length_le key value c m v l
  rw [kvBytes_new] at hsize ⊢
  exact ⟨h.key_length, ⟨key, c, m, v, value, l⟩, rfl, by show value.length < _; omega, rfl⟩

theorem Blobs.apply {K : Keyspace} {w : Write} (h : Blobs K) (hw : K.Accepts w)
    (hfit : w.record.Fits) : Blobs (K.apply w) := by
  intro key ks hks
  cases w with
  | put k value lease rev prev =>
      obtain rfl : aliveIn K.keys k = prev := hw
      rcases getElem?_insert_cases hks with ⟨rfl, rfl⟩ | ⟨-, hks⟩
      · rw [← kvBytes_putRecord]
        exact encodes_new hfit
      · exact h key ks hks
  | delete k rev prev =>
      rcases getElem?_insert_cases hks with ⟨rfl, rfl⟩ | ⟨-, hks⟩
      · exact h key prev (aliveIn_eq_some.mp hw.1).1
      · exact h key ks hks

theorem Blobs.replay? [LawfulCrates] {K K' : Keyspace} {rec : KvWalRecord} (h : Blobs K)
    (hrec : rec.Carries) (hK' : K.replay? rec = some K') : Blobs K' := by
  obtain ⟨recKey, hkey, hblob⟩ := hrec.blob
  obtain rfl | ⟨prev, hprev, rfl⟩ | ⟨kv, n, hput, hkv, rfl⟩ := Keyspace.replay?_cases hK'
  · exact h
  · intro key ks hks
    rcases getElem?_insert_cases hks with ⟨rfl, rfl⟩ | ⟨-, hks⟩
    · exact h _ prev (aliveIn_eq_some.mp hprev).1
    · exact h key ks hks
  · have hencodes := hblob hput
    have hname : (decodeKeyValue rec.kvBytes).map (·.key) = some recKey := hencodes.blobKey
    rw [hkv, Option.map_some, Option.some.injEq] at hname
    intro key ks hks
    rcases getElem?_insert_cases hks with ⟨rfl, rfl⟩ | ⟨-, hks⟩
    · rw [hname]
      exact hencodes
    · exact h key ks hks

theorem Blobs.replayAll? [LawfulCrates] {K K' : Keyspace} {recs : List KvWalRecord} (h : Blobs K)
    (hrecs : ∀ rec ∈ recs, rec.Carries) (hK' : K.replayAll? recs = some K') : Blobs K' :=
  Keyspace.replayAll?_invariant hK' h fun _ _ rec hrec h => h.replay? (hrecs rec hrec)

variable [LawfulCrates]

theorem Write.carries_record {w : Write} (hfit : w.record.Fits) : w.record.Carries := by
  obtain ⟨hwf, hkey, -⟩ := Write.record_spec hfit
  refine ⟨hwf, w.key, hkey, ?_⟩
  intro hput
  cases w with
  | put key value lease rev prev => exact encodes_new hfit
  | delete key rev prev =>
      rw [Write.record, deleted_deleteRecord] at hput
      cases hput

theorem carries_snapshotRecord {key : Bytes} {ks : KeyState} (hfit : (snapshotRecord key ks).Fits) :
    (snapshotRecord key ks).Carries := by
  obtain ⟨hwf, hkey, -, -⟩ := KvWalRecord.Fits.new_spec hfit
  exact ⟨hwf, key, hkey, fun _ => encodes_new hfit⟩

/-- Entries and file hold blobs that `encode_kv` made. -/
structure Encoded (sys : System) : Prop where
  entries : Blobs sys.store.keyspace
  file : ∃ recs, sys.store.wal.contents = serializeAll recs ∧ ∀ rec ∈ recs, rec.Carries

theorem Encoded.commits {sys : System} (h : Encoded sys) {s' : StoreState} {ws : List Write}
    (hc : Commits sys.store ws s') (hfit : ∀ w ∈ ws, w.record.Fits) :
    Encoded { sys with store := s' } where
  entries := hc.run.invariant h.entries fun _ w hw hK haccepts => hK.apply haccepts (hfit w hw)
  file := by
    obtain ⟨recs, hcontents, hrecs⟩ := h.file
    refine ⟨recs ++ ws.map Write.record, by rw [hc.contents, hcontents, serializeAll_append], ?_⟩
    intro rec hrec
    rcases List.mem_append.mp hrec with hrec | hrec
    · exact hrecs rec hrec
    · obtain ⟨w, hw, rfl⟩ := List.mem_map.mp hrec
      exact Write.carries_record (hfit w hw)

/-- **Every event keeps it so.** New entries and records are made by `encode_kv`, replay takes its
blobs from records, and a snapshot encodes entries again. -/
theorem Encoded.step {sys sys' : System} {ev : Event} (h : Encoded sys) (hj : Journaled sys)
    (hok : sys.StepOk ev) (hstep : sys.step ev = some sys') : Encoded sys' := by
  obtain ⟨hfit, hcounts⟩ := hok
  cases System.moves_of_step hj.faults hstep with
  | @request q ws s' hq hserved =>
      refine h.commits hserved.toCommits ?_
      intro w hw
      refine hfit s' hq _ ?_
      rw [hserved.log]
      exact List.mem_append_right _ (List.mem_map_of_mem hw)
  | watch hquiet => exact h.commits (hquiet.served hj.faults).toCommits (by simp)
  | cancelWatch hquiet => exact h.commits (hquiet.served hj.faults).toCommits (by simp)
  | compactA | compactB | compactFails => exact ⟨h.entries, h.file⟩
  | @compactC c hcomp =>
      obtain ⟨base, ws, hp, -, -⟩ := hj.pending c hcomp
      refine ⟨h.entries, _, hp.contents_swap, ?_⟩
      intro rec hrec
      rcases List.mem_append.mp hrec with hrec | hrec
      · obtain ⟨e, he, rfl⟩ := List.mem_map.mp hrec
        exact carries_snapshotRecord (hp.snapshot_fits e he)
      · obtain ⟨w, hw, rfl⟩ := List.mem_map.mp hrec
        exact Write.carries_record (hp.fits w hw)
  | restart hopen =>
      obtain ⟨recs, hcontents, hrecs⟩ := h.file
      obtain ⟨recs', n, K, hscan, hK, rfl⟩ := openStore_eq_ok hopen
      rw [hcontents, scanKvFile_serializeAll fun r hr => (hrecs r hr).wellFormed] at hscan
      cases hscan
      refine ⟨blobs_empty.replayAll? ?_ hK, recs, hcontents, hrecs⟩
      exact fun rec hrec => hrecs rec (List.mem_filter.mp hrec).1

omit [LawfulCrates] in
theorem encoded_fresh : Encoded ⟨fresh, none⟩ := ⟨blobs_empty, [], rfl, by simp⟩

/-- What a reachable server is. -/
theorem encoded_of_run {evs : List Event} {sys : System}
    (hrun : System.run ⟨fresh, none⟩ evs = some sys)
    (hok : Trace.Along System.step System.StepOk ⟨fresh, none⟩ evs) :
    Journaled sys ∧ Encoded sys := by
  have hstep : ∀ (s : System) ev s', Journaled s ∧ Encoded s → s.StepOk ev →
      s.step ev = some s' → Journaled s' ∧ Encoded s' := by
    intro s ev s' h hP hstep
    exact ⟨h.1.step hP hstep, h.2.step h.1 hP hstep⟩
  exact Trace.invariant hstep ⟨journaled_fresh, encoded_fresh⟩ hok hrun

/-! ### What a range finds -/

omit [Crates] [LawfulCrates] in
theorem visitedCurrent_sublist {β : Type} {m : ExtTreeMap Bytes β} {bound : RangeBound}
    {entries : List (Bytes × β)} (h : visitedCurrent m bound = .ok entries) :
    entries.Sublist m.toList := by
  cases bound with
  | point k =>
      cases h
      rw [getElem?_eq_filter]
      exact List.filter_sublist
  | all | fromKey k | prefixOf p | range start stop =>
      simp only [visitedCurrent] at h
      rw [walkRange_eq_ok h]
      exact List.filter_sublist

omit [Crates] [LawfulCrates] in
theorem paired_toList {m : ExtTreeMap Bytes Bytes} (h : AllEntries Encodes m)
    (hlen : m.toList.length ≤ 2 ^ 32) : Paired m.toList where
  encodes := fun e he => h e.1 e.2 (ExtTreeMap.mem_toList_iff_getElem?_eq_some.mp he)
  ascending := pairwise_toList m
  length_le := hlen

omit [Crates] [LawfulCrates] in
/-- The blobs of some of the entries. -/
theorem Blobs.paired {K : Keyspace} (h : Blobs K) {entries : List (Bytes × KeyState)}
    (hentries : entries.Sublist K.keys.toList) (hlen : entries.length ≤ 2 ^ 32) :
    Paired (entries.map fun e => (e.1, e.2.kvBytes)) where
  encodes := by
    intro e he
    obtain ⟨d, hd, rfl⟩ := List.mem_map.mp he
    exact h d.1 d.2 (ExtTreeMap.mem_toList_iff_getElem?_eq_some.mp (hentries.subset hd))
  ascending := List.pairwise_map.mpr ((pairwise_toList K.keys).sublist hentries)
  length_le := by rwa [List.length_map]

omit [LawfulCrates] in
/-- The blobs that a scan collects. -/
theorem Encoded.scan {sys : System} (h : Encoded sys) {key rangeEnd : Bytes} {r : UInt64}
    {walState : ExtTreeMap Bytes Bytes}
    (hscan : scanWalRange sys.store.wal.contents key rangeEnd r = .ok walState) :
    AllEntries Encodes walState := by
  obtain ⟨recs, hcontents, hrecs⟩ := h.file
  rw [scanWalRange, hcontents, scanKvFile_serializeAll fun r hr => (hrecs r hr).wellFormed] at hscan
  cases hscan
  refine AllEntries.foldl ?_ (fun k kv hget => by simp at hget)
  intro m rec hrec hm
  obtain ⟨recKey, hkey, hblob⟩ := (hrecs rec hrec).blob
  unfold scanWalRecord
  rw [hkey]
  dsimp only
  split
  · exact hm
  split
  · split
    · intro k kv hget
      rw [ExtTreeMap.getElem?_erase] at hget
      split at hget
      · cases hget
      · exact hm k kv hget
    · next hput => exact hm.insert (hblob (Bool.eq_false_iff.mpr hput))
  · exact hm

omit [LawfulCrates] in
/-- **What a range finds**: blobs of `encode_kv`, by key. -/
theorem Encoded.paired {sys : System} (h : Encoded sys) {req : RangeRequest}
    {header : ResponseHeader} {pairs : List (Bytes × Bytes)}
    (hfound : sys.store.found req = .ok (header, pairs)) (hlen : pairs.length ≤ 2 ^ 32) :
    Paired pairs := by
  unfold StoreState.found at hfound
  obtain ⟨-, -, hfound⟩ := Prog.bind_eq_ok.mp hfound
  dsimp only at hfound
  generalize (if req.revision > 0 then req.revision.toUInt64 else 0) = targetRev at hfound
  split at hfound
  · cases hfound
  split at hfound
  · cases hfound
  split at hfound
  · -- a range in the past: the memory answers alone, or merged with the WAL
    obtain ⟨found, hpairs, heq⟩ := Prog.bind_eq_ok.mp hfound
    cases heq
    obtain ⟨⟨direct, stale⟩, hphase, hpairs⟩ := Prog.bind_eq_ok.mp hpairs
    obtain ⟨entries, hvisited, heq⟩ := Prog.bind_eq_ok.mp hphase
    cases heq
    have hsub : entries.Sublist sys.store.keys.toList := by
      rw [walkRange_eq_ok hvisited]
      exact List.filter_sublist
    by_cases hstale : (entries.filter fun e =>
        phase1Classify req.plain targetRev e.2 = .stale).map (·.1) = []
    · dsimp only at hpairs
      rw [if_pos hstale] at hpairs
      cases hpairs
      rw [List.length_map] at hlen
      exact h.entries.paired (List.filter_sublist.trans hsub) hlen
    · dsimp only at hpairs
      rw [if_neg hstale] at hpairs
      split at hpairs
      · cases hpairs
      · next walState hscan =>
          cases hpairs
          refine paired_toList (historicalMerge_all ?_ ?_ ?_) hlen
          · intro e he
            obtain ⟨d, hd, rfl⟩ := List.mem_map.mp he
            have hmem := (List.filter_sublist.trans hsub).subset hd
            exact h.entries d.1 d.2 (ExtTreeMap.mem_toList_iff_getElem?_eq_some.mp hmem)
          · exact h.scan hscan
          · intro key _ ks _ halive
            exact h.entries key ks (aliveIn_eq_some.mp halive).1
  · -- a current range is a walk of the map
    obtain ⟨found, hpairs, heq⟩ := Prog.bind_eq_ok.mp hfound
    cases heq
    obtain ⟨-, -, hpairs⟩ := Prog.bind_eq_ok.mp hpairs
    obtain ⟨entries, hvisited, heq⟩ := Prog.bind_eq_ok.mp hpairs
    cases heq
    rw [pickCurrent, List.length_map] at hlen
    exact h.entries.paired (List.filter_sublist.trans (visitedCurrent_sublist hvisited)) hlen

/-! ### Two answers -/

omit [LawfulCrates] in
/-- Two answers have the same keys in the same order, the same count and the same `more`, or they
are the same error. -/
def AgreeOnKeys : Except Failure RangeResponse → Except Failure RangeResponse → Prop
  | .ok a, .ok b => a.keys = b.keys ∧ a.count = b.count ∧ a.more = b.more
  | .error e, .error e' => e = e'
  | _, _ => False

instance : (a b : Except Failure RangeResponse) → Decidable (AgreeOnKeys a b)
  | .ok a, .ok b =>
      inferInstanceAs (Decidable (a.keys = b.keys ∧ a.count = b.count ∧ a.more = b.more))
  | .error e, .error e' => inferInstanceAs (Decidable (e = e'))
  | .ok _, .error _ => .isFalse id
  | .error _, .ok _ => .isFalse id

omit [Crates] [LawfulCrates] in
/-- The count and `more` of a page do not depend on `keys_only`. -/
theorem count_page (req : RangeRequest) (header : ResponseHeader) (pairs : List (Bytes × Bytes)) :
    (page { req with keysOnly := true } header pairs).count
        = (page { req with keysOnly := false } header pairs).count ∧
      (page { req with keysOnly := true } header pairs).more
        = (page { req with keysOnly := false } header pairs).more := by
  unfold page
  dsimp only
  split <;> exact ⟨rfl, rfl⟩

/-- **When `keys_only` keeps the keys**: on a server that a run reached, exactly when the pairs
that the range finds are in the order asked for already. -/
theorem keys_only_keeps_keys {evs : List Event} {sys : System}
    (hrun : System.run ⟨fresh, none⟩ evs = some sys)
    (hok : Trace.Along System.step System.StepOk ⟨fresh, none⟩ evs) (req : RangeRequest)
    (hlen : ∀ header pairs, sys.store.found req = .ok (header, pairs) → pairs.length ≤ 2 ^ 32) :
    AgreeOnKeys (range sys.store { req with keysOnly := true })
        (range sys.store { req with keysOnly := false }) ↔
      ∀ header pairs, sys.store.found req = .ok (header, pairs) → KeepsKeys req pairs := by
  have hpage : ∀ keysOnly, range sys.store { req with keysOnly }
      = (sys.store.found req).map fun found => page { req with keysOnly } found.1 found.2 := by
    intro keysOnly
    refine range_eq_page sys.store { req with keysOnly } ?_
    intro header pairs hfound
    have := hlen header pairs hfound
    omega
  -- both requests find the same pairs and differ in the page they make of them
  rw [hpage, hpage]
  cases hfound : sys.store.found req with
  | error e => exact iff_of_true rfl (by intro _ _ h; cases h)
  | ok found =>
      obtain ⟨header, pairs⟩ := found
      have hpaired := (encoded_of_run hrun hok).2.paired hfound (hlen header pairs hfound)
      have hkeys := keys_page_iff hpaired req header
      obtain ⟨hcount, hmore⟩ := count_page req header pairs
      constructor
      · intro hagree header' pairs' heq
        cases heq
        exact hkeys.mp hagree.1
      · intro hkeeps
        exact ⟨hkeys.mpr (hkeeps header pairs rfl), hcount, hmore⟩

end

/-- Two keys put in the order of their keys, and asked for by mod revision. -/
theorem keys_only_keeps_keys_ascending :
    ∃ sys, System.run ⟨fresh, none⟩ [.request (.put { key := [1] }), .request (.put { key := [2] })]
        = some sys ∧
      AgreeOnKeys
        (range sys.store
          { key := [1], rangeEnd := [0], sortOrder := 1, sortTarget := 3, keysOnly := true })
        (range sys.store
          { key := [1], rangeEnd := [0], sortOrder := 1, sortTarget := 3, keysOnly := false }) ∧
      ∀ header pairs,
        sys.store.found { key := [1], rangeEnd := [0], sortOrder := 1, sortTarget := 3 }
            = .ok (header, pairs) →
          KeepsKeys { key := [1], rangeEnd := [0], sortOrder := 1, sortTarget := 3 } pairs := by
  have hrun : ((System.run ⟨fresh, none⟩
        [.request (.put { key := [1] }), .request (.put { key := [2] })]).any fun sys =>
      decide (AgreeOnKeys
        (range sys.store
          { key := [1], rangeEnd := [0], sortOrder := 1, sortTarget := 3, keysOnly := true })
        (range sys.store
          { key := [1], rangeEnd := [0], sortOrder := 1, sortTarget := 3, keysOnly := false })) &&
      ((sys.store.found
          { key := [1], rangeEnd := [0], sortOrder := 1,
            sortTarget := 3 }).toOption.all fun found =>
        decide (found.2.length ≤ 2 ^ 32))) = true := by
    decide +kernel
  obtain ⟨sys, hsys, hfacts⟩ := (Option.any_eq_true _ _).mp hrun
  obtain ⟨hagree, hlen⟩ := (Bool.and_eq_true _ _).mp hfacts
  have hagree := of_decide_eq_true hagree
  refine ⟨sys, hsys, hagree, ?_⟩
  refine (keys_only_keeps_keys hsys (by decide +kernel)
    { key := [1], rangeEnd := [0], sortOrder := 1, sortTarget := 3 } ?_).mp hagree
  intro header pairs hfound
  rw [hfound] at hlen
  exact of_decide_eq_true hlen

/-- The key put first is written again: by mod revision it comes last, with `keys_only` first. -/
theorem keys_only_reorders_keys :
    ∃ sys, System.run ⟨fresh, none⟩
        [.request (.put { key := [1] }), .request (.put { key := [2] }),
          .request (.put { key := [1] })] = some sys ∧
      ¬ AgreeOnKeys
        (range sys.store
          { key := [1], rangeEnd := [0], sortOrder := 1, sortTarget := 3, keysOnly := true })
        (range sys.store
          { key := [1], rangeEnd := [0], sortOrder := 1, sortTarget := 3, keysOnly := false }) := by
  have hrun : ((System.run ⟨fresh, none⟩
        [.request (.put { key := [1] }), .request (.put { key := [2] }),
          .request (.put { key := [1] })]).any fun sys =>
      decide (¬ AgreeOnKeys
        (range sys.store
          { key := [1], rangeEnd := [0], sortOrder := 1, sortTarget := 3, keysOnly := true })
        (range sys.store
          { key := [1], rangeEnd := [0], sortOrder := 1, sortTarget := 3, keysOnly := false })))
      = true := by
    decide +kernel
  obtain ⟨sys, hsys, hdiffers⟩ := (Option.any_eq_true _ _).mp hrun
  exact ⟨sys, hsys, of_decide_eq_true hdiffers⟩

end Rudurru
