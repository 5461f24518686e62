import Rudurru.KeysOnly
import Rudurru.Lib.Paging
import Rudurru.Txn.Backwards

/-!
# Rudurru.Listing

Lists read in pages. A client that asks for a range with a limit and is told that there is more goes
on with the last key it got and a zero byte, the next key there is. Other requests, compactions and
restarts come in between, so no single state is listed; but the pages are in order, what is on them
was there when they were read, and a key that is there from the first page to the last is on one of
them (`paged_list`).

A page read with a limit is the beginning of the walk (`range_page`), and the next request is for
the rest of the same range, behind the last key of the page. This is what `Lib.Paging` asks of a
list that is read in pages, with the state at each request as its view; the theorem is its three
facts, for the keys of the responses. That the range can be continued at all takes a bound that is
an interval: with a prefix in the alternate form the next request is for another range.
-/

namespace Rudurru

open Std (ExtTreeMap)
open Paging (Paged Behind after)

/-! ### Ranges that can be continued -/

/-- The range is an interval, wherever it starts: `range_end` is not taken for a zero byte after the
key. -/
def IsInterval (rangeEnd : Bytes) : Prop :=
  rangeEnd = [0] ∨ rangeEnd ≠ [] ∧ rangeEnd.getLast? ≠ some 0

instance (rangeEnd : Bytes) : Decidable (IsInterval rangeEnd) :=
  inferInstanceAs (Decidable (_ ∨ _))

/-- Is the key below `range_end`? -/
def below (rangeEnd key : Bytes) : Bool := rangeEnd = [0] || bytesLt key rangeEnd

/-- What such a range means. -/
theorem matchesRange_interval {rangeEnd : Bytes} (h : IsInterval rangeEnd) {key : Bytes}
    (hkey : key ≠ []) (k : Bytes) :
    matchesRange (resolveRange key rangeEnd) k = (bytesLe key k && below rangeEnd k) := by
  unfold resolveRange below
  rcases h with rfl | ⟨hempty, hlast⟩
  · simp [matchesRange, hkey]
  have hfrom : rangeEnd ≠ [0] := by
    rintro rfl
    exact hlast rfl
  have hsuffix : rangeEnd ≠ key ++ [0] := by
    rintro rfl
    exact hlast List.getLast?_concat
  rw [if_neg hempty, if_neg hfrom]
  by_cases hinc : rangeEnd.length = key.length ∧ rangeEnd.dropLast = key.dropLast
      ∧ rangeEnd.getLast? = key.getLast?.map (· + 1) ∧ key.getLast? ≠ some 0xff
  · rw [if_pos hinc]
    obtain ⟨q, b, hb, rfl, rfl⟩ := (incremented_iff hkey).mp hinc
    rw [matchesRange, ← incremented_interval_iff hb, decide_eq_false hfrom, Bool.false_or]
  · rw [if_neg hinc, if_neg hsuffix, matchesRange, decide_eq_false hfrom, Bool.false_or]

/-- The key after a key. -/
theorem bytesLe_concat_zero (a b : Bytes) : bytesLe (a ++ [0]) b = bytesLt a b := by
  have hnot := bytesLt_eq_not_bytesLe b (a ++ [0])
  cases hlt : bytesLt a b with
  | false =>
      have hle : bytesLe b a = true := by
        rw [bytesLt_eq_not_bytesLe] at hlt
        simpa using hlt
      have hself := point_interval_iff a a
      rw [bytesLe_refl, Bool.true_and, decide_eq_true rfl] at hself
      rw [bytesLt_of_le_of_lt hle hself] at hnot
      simpa using hnot.symm
  | true =>
      by_contra hle
      rw [Bool.eq_false_iff.mpr hle] at hnot
      have hpoint := point_interval_iff a b
      rw [bytesLe_of_bytesLt hlt, hnot] at hpoint
      obtain rfl : b = a := of_decide_eq_true hpoint.symm
      rw [bytesLt_irrefl] at hlt
      cases hlt

/-- Nothing lies between a key and the next one, so the rest of the range is what lies behind. -/
theorem matchesRange_next {rangeEnd : Bytes} (h : IsInterval rangeEnd) {key last : Bytes}
    (hkey : key ≠ []) (hlast : bytesLe key last = true) (k : Bytes) :
    matchesRange (resolveRange (last ++ [0]) rangeEnd) k
      = (bytesLt last k && matchesRange (resolveRange key rangeEnd) k) := by
  rw [matchesRange_interval h hkey, matchesRange_interval h (by simp), bytesLe_concat_zero]
  cases hlt : bytesLt last k with
  | false => rfl
  | true =>
      have hle : bytesLe key k = true :=
        bytesLe_of_bytesLt (bytesLt_of_le_of_lt hlast hlt)
      rw [hle, Bool.true_and, Bool.true_and]

/-! ### One page

A page of a current range in key order is the beginning of what is found, cut off at the limit, and
it says whether something was cut off.
-/

/-- A request that is answered in pages of the current state, in key order. -/
structure RangeRequest.Paginates (req : RangeRequest) : Prop where
  key : req.key ≠ []
  interval : IsInterval req.rangeEnd
  revision : req.revision ≤ 0
  limit : 0 < req.limit
  countOnly : req.countOnly = false
  unsorted : req.sortOrder ≠ 1 ∧ req.sortOrder ≠ 2

/-- The number of entries of a page. -/
def RangeRequest.pageSize (req : RangeRequest) : Nat := req.limit.toUInt64.toNat

/-- The request for the page that starts at a key. -/
def RangeRequest.startingAt (req : RangeRequest) (key : Bytes) : RangeRequest := { req with key }

section

variable [Crates]

omit [Crates] in
theorem pageSize_pos {req : RangeRequest} (h : 0 < req.limit) :
    req.pageSize = req.limit.toInt.toNat ∧ 0 < req.pageSize := by
  rw [RangeRequest.pageSize, Int64.toNat_toUInt64_of_le (Int64.le_of_lt h), Int64.toNatClampNeg]
  rw [Int64.lt_iff_toInt_lt] at h
  have hzero : (0 : Int64).toInt = 0 := rfl
  omega

/-- A range of the current state answers with a page of its pairs, if it answers. -/
theorem currentPairs_of_range {s : StoreState} {req : RangeRequest} (hrev : req.revision ≤ 0)
    {resp : RangeResponse} (hresp : range s req = .ok resp) :
    resp = page req s.header (s.currentPairs req) := by
  have hcurrent : range s req = (checkKey req.key).bind fun _ => rangeCurrent s req := by
    unfold range
    simp only [if_neg (show ¬ req.revision > 0 from Int64.not_lt.mpr hrev)]
    rfl
  rw [hcurrent] at hresp
  obtain ⟨-, -, hresp⟩ := Prog.bind_eq_ok.mp hresp
  rw [rangeCurrent_eq_page] at hresp
  cases hinv : (resolveRange req.key req.rangeEnd).inverted with
  | false =>
      rw [currentFound_eq s hinv] at hresp
      cases hreserve : s.reserve req with
      | error e =>
          rw [hreserve] at hresp
          cases hresp
      | ok _ =>
          rw [hreserve] at hresp
          exact (Except.ok.inj hresp).symm
  | true =>
      rw [StoreState.currentFound, (visitedCurrent_eq_rangePanic s.keys _).mpr hinv] at hresp
      cases hreserve : s.reserve req with
      | error e =>
          rw [hreserve] at hresp
          cases hresp
      | ok _ =>
          rw [hreserve] at hresp
          cases hresp

/-- **One page**: the first entries of what is asked for, and whether there are more. -/
theorem range_page {s : StoreState} {req : RangeRequest} (h : req.Paginates) {key : Bytes}
    {resp : RangeResponse} (hsize : s.keys.size < 2 ^ 63)
    (hresp : range s (req.startingAt key) = .ok resp) :
    resp.kvs = ((s.currentPairs (req.startingAt key)).take req.pageSize).map
        (fun e => responseKv req e.1 e.2) ∧
      (resp.more = true ↔ req.pageSize < (s.currentPairs (req.startingAt key)).length) := by
  obtain ⟨hnat, hpos⟩ := pageSize_pos h.limit
  have hlen : (s.currentPairs (req.startingAt key)).length < 2 ^ 63 := by
    rw [StoreState.currentPairs, pickCurrent, List.length_map]
    refine Nat.lt_of_le_of_lt ((List.length_filter_le _ _).trans (List.length_filter_le _ _)) ?_
    rwa [ExtTreeMap.length_toList]
  have hrev : (req.startingAt key).revision ≤ 0 := h.revision
  have hpage := currentPairs_of_range hrev hresp
  have hkvs := @kvs_page (req.startingAt key) h.countOnly s.header _ hlen
  have hlimit : (req.startingAt key).pageLimit = req.pageSize := if_pos h.limit
  have hunsorted : (req.startingAt key).sortOrder ≠ 1 ∧ (req.startingAt key).sortOrder ≠ 2 :=
    h.unsorted
  have hcount : ¬ (req.startingAt key).countOnly = true := by
    rw [show (req.startingAt key).countOnly = false from h.countOnly]
    exact Bool.false_ne_true
  rw [← hpage, hlimit, truncated, if_neg (by omega), sortKvs, if_pos hunsorted] at hkvs
  refine ⟨hkvs.trans (List.map_take ..).symm, ?_⟩
  rw [hpage, page, if_neg hcount]
  show (0 < req.limit && req.limit < Int64.ofNat _) = true ↔ _
  rw [decide_eq_true h.limit, Bool.true_and, decide_eq_true_eq, Int64.lt_iff_toInt_lt,
    Int64.toInt_ofNat_of_lt hlen]
  omega

/-! ### The pages of a list -/

/-- The key that a client goes on from: the one after the last key it was sent. -/
def RangeResponse.nextPage (resp : RangeResponse) : Option Bytes :=
  (resp.kvs.getLast?.bind blobKey).map (· ++ [0])

/-- The pages of a list, each with the server that answered it. Between two of them anything can
happen to the server. -/
inductive Listing (req : RangeRequest) : Bytes → System → List (System × RangeResponse) → Prop
  | last {key sys resp} : range sys.store (req.startingAt key) = .ok resp → resp.more = false →
      Listing req key sys [(sys, resp)]
  | more {key next sys sys' resp evs pages} : range sys.store (req.startingAt key) = .ok resp →
      resp.more = true → resp.nextPage = some next → System.run sys evs = some sys' →
      Trace.Along System.step System.StepOk sys evs → Listing req next sys' pages →
      Listing req key sys ((sys, resp) :: pages)

/-- The order of keys. -/
abbrev KeyLt (a b : Bytes) : Prop := bytesLt a b = true

omit [Crates] in
instance : IsTrans Bytes KeyLt := ⟨fun _ _ _ h h' => bytesLt_of_le_of_lt (bytesLe_of_bytesLt h) h'⟩

omit [Crates] in
instance : Std.Irrefl KeyLt := ⟨fun a h => by rw [KeyLt, bytesLt_irrefl] at h; cases h⟩

omit [Crates] in
theorem ascending_currentPairs (s : StoreState) (req : RangeRequest) :
    Paging.Ascending KeyLt (s.currentPairs req) := by
  refine List.pairwise_map.mpr ((pairwise_toList s.keys).sublist ?_)
  exact List.filter_sublist.trans List.filter_sublist

omit [Crates] in
/-- What a pair of a range is. -/
theorem mem_currentPairs {s : StoreState} {req : RangeRequest} {e : Bytes × Bytes} :
    e ∈ s.currentPairs req ↔ matchesRange (resolveRange req.key req.rangeEnd) e.1 = true ∧
      ∃ ks, s.alive? e.1 = some ks ∧ passesRevisionFilters req ks = true ∧ e.2 = ks.kvBytes := by
  simp only [StoreState.currentPairs, pickCurrent, List.mem_map, List.mem_filter, Bool.and_eq_true]
  constructor
  · intro h
    obtain ⟨d, ⟨⟨hmem, hmatch⟩, halive, hpasses⟩, rfl⟩ := h
    exact ⟨hmatch, d.2, aliveIn_eq_some.mpr
      ⟨ExtTreeMap.mem_toList_iff_getElem?_eq_some.mp hmem, halive⟩, hpasses, rfl⟩
  · intro h
    obtain ⟨hmatch, ks, hks, hpasses, hblob⟩ := h
    obtain ⟨hget, halive⟩ := aliveIn_eq_some.mp hks
    exact ⟨(e.1, ks), ⟨⟨ExtTreeMap.mem_toList_iff_getElem?_eq_some.mpr hget, hmatch⟩, halive,
      hpasses⟩, Prod.ext rfl hblob.symm⟩

omit [Crates] in
/-- The rest of the range behind a key. -/
theorem currentPairs_next {req : RangeRequest} (h : req.Paginates) {last : Bytes}
    (hlast : bytesLe req.key last = true) (s : StoreState) :
    s.currentPairs (req.startingAt (last ++ [0]))
      = after KeyLt (some last) (s.currentPairs req) := by
  rw [after, StoreState.currentPairs, StoreState.currentPairs, pickCurrent, pickCurrent,
    List.filter_map, List.filter_filter, List.filter_filter, List.filter_filter]
  refine congrArg (List.map _) (List.filter_congr fun e _ => ?_)
  have hbehind : decide (Behind KeyLt (some last) e.1) = bytesLt last e.1 := by
    rw [Bool.eq_iff_iff, decide_eq_true_eq]
    exact ⟨fun hb => hb last rfl, fun hb c hc => by cases hc; exact hb⟩
  rw [Function.comp_apply, hbehind]
  show ((e.2.isAlive && passesRevisionFilters req e.2) &&
    matchesRange (resolveRange (last ++ [0]) req.rangeEnd) e.1) = _
  rw [matchesRange_next h.interval h.key hlast]
  cases bytesLt last e.1 <;> simp

/-- Where a list has got to. -/
def GotTo (req : RangeRequest) (key : Bytes) (cursor : Option Bytes) : Prop :=
  cursor = none ∧ key = req.key ∨
    ∃ last, cursor = some last ∧ key = last ++ [0] ∧ bytesLe req.key last = true

omit [Crates] in
theorem GotTo.currentPairs {req : RangeRequest} (h : req.Paginates) {key : Bytes}
    {cursor : Option Bytes} (hkey : GotTo req key cursor) (s : StoreState) :
    s.currentPairs (req.startingAt key) = after KeyLt cursor (s.currentPairs req) := by
  rcases hkey with ⟨rfl, rfl⟩ | ⟨last, rfl, rfl, hlast⟩
  · refine (List.filter_eq_self.mpr fun e _ => decide_eq_true ?_).symm
    rintro c ⟨⟩
  · exact currentPairs_next h hlast s

variable [LawfulCrates]

/-- The blob of a pair names its key, and so does what a response makes of it. -/
theorem Blobs.blobKey_responseKv {s : StoreState} (h : Blobs s.keyspace)
    {req : RangeRequest} {e : Bytes × Bytes} (he : e ∈ s.currentPairs req) :
    blobKey (responseKv req e.1 e.2) = some e.1 := by
  obtain ⟨-, ks, hks, -, hblob⟩ := mem_currentPairs.mp he
  have hencodes := h e.1 ks (aliveIn_eq_some.mp hks).1
  rw [hblob]
  exact Rudurru.blobKey_responseKv req hencodes.key_length hencodes.blobKey

/-- What a server holds stays encoded. -/
theorem encoded_later {sys sys' : System} {evs : List Event} (hj : Journaled sys) (he : Encoded sys)
    (hrun : System.run sys evs = some sys')
    (hok : Trace.Along System.step System.StepOk sys evs) : Journaled sys' ∧ Encoded sys' := by
  have hstep : ∀ (s : System) ev s', Journaled s ∧ Encoded s → s.StepOk ev →
      s.step ev = some s' → Journaled s' ∧ Encoded s' := by
    intro s ev s' hs hP hstep
    exact ⟨hs.1.step hP hstep, hs.2.step hs.1 hP hstep⟩
  exact Trace.invariant hstep ⟨hj, he⟩ hok hrun

/-- A client reads the key to go on from off the last entry of a page that is cut off. -/
theorem nextPage_of_cut {s : StoreState} {req : RangeRequest} (h : req.Paginates)
    (hblobs : Blobs s.keyspace) {cursor : Option Bytes} {resp : RangeResponse}
    (hkvs : resp.kvs = ((after KeyLt cursor (s.currentPairs req)).take req.pageSize).map
      fun e => responseKv req e.1 e.2)
    (hlen : req.pageSize < (after KeyLt cursor (s.currentPairs req)).length) :
    ∃ e, ((after KeyLt cursor (s.currentPairs req)).take req.pageSize).getLast? = some e ∧
      e ∈ s.currentPairs req ∧ resp.nextPage = some (e.1 ++ [0]) ∧
      bytesLe req.key e.1 = true := by
  have hpos := (pageSize_pos h.limit).2
  have hne : (after KeyLt cursor (s.currentPairs req)).take req.pageSize ≠ [] := by
    refine List.ne_nil_of_length_pos ?_
    rw [List.length_take]
    omega
  obtain ⟨e, hlast⟩ := Option.isSome_iff_exists.mp (List.getLast?_isSome.mpr hne)
  have hmem := (Paging.mem_after.mp ((List.take_sublist _ _).subset
    (List.mem_of_getLast? hlast))).1
  refine ⟨e, hlast, hmem, ?_, ?_⟩
  · rw [RangeResponse.nextPage, hkvs, List.getLast?_map, hlast, Option.map_some, Option.bind_some,
      hblobs.blobKey_responseKv hmem]
    rfl
  · have hmatch := (mem_currentPairs.mp hmem).1
    rw [matchesRange_interval h.interval h.key, Bool.and_eq_true] at hmatch
    exact hmatch.1

/-- A response shows some pairs of the state it was made in. -/
structure Displays (req : RangeRequest) (p : System × RangeResponse) (page : List (Bytes × Bytes)) :
    Prop where
  blobs : Blobs p.1.store.keyspace
  sub : page ⊆ p.1.store.currentPairs req
  kvs : p.2.kvs = page.map fun e => responseKv req e.1 e.2

/-- The keys that a client reads off the blobs. -/
theorem Displays.keys {req : RangeRequest} {p : System × RangeResponse}
    {page : List (Bytes × Bytes)}
    (h : Displays req p page) : p.2.kvs.map blobKey = (page.map (·.1)).map some := by
  rw [h.kvs, List.map_map, List.map_map]
  exact List.map_congr_left fun e he => h.blobs.blobKey_responseKv (h.sub he)

/-- **The pages are the pages of a changing list**, as the states they were read in have it. Each
page is read in its own state; the range it is read from is the rest of the range behind the last
key. -/
theorem Listing.paged {req : RangeRequest} (h : req.Paginates) {key : Bytes} {sys : System}
    {pages : List (System × RangeResponse)} (hlist : Listing req key sys pages)
    {cursor : Option Bytes} (hkey : GotTo req key cursor) (hj : Journaled sys)
    (he : Encoded sys) (hsize : ∀ p ∈ pages, p.1.store.keys.size < 2 ^ 63) :
    ∃ found, Paged KeyLt req.pageSize cursor (pages.map fun p => p.1.store.currentPairs req) found ∧
      List.Forall₂ (Displays req) pages found := by
  induction hlist generalizing cursor with
  | @last key sys resp hresp hmore =>
      have hhere : sys.store.keys.size < 2 ^ 63 := hsize (sys, resp) List.mem_cons_self
      obtain ⟨hkvs, hcut⟩ := range_page h hhere hresp
      rw [hkey.currentPairs h] at hkvs hcut
      have hlen := Nat.not_lt.mp (mt hcut.mpr (by rw [hmore]; simp))
      rw [List.take_of_length_le hlen] at hkvs
      have hsub : after KeyLt cursor (sys.store.currentPairs req) ⊆ sys.store.currentPairs req :=
        List.filter_sublist.subset
      exact ⟨[_], .last hlen, .cons ⟨he.entries, hsub, hkvs⟩ .nil⟩
  | @more key next sys sys' resp evs pages hresp hmore hnext hrun hok _ ih =>
      have hhere : sys.store.keys.size < 2 ^ 63 := hsize (sys, resp) List.mem_cons_self
      obtain ⟨hkvs, hcut⟩ := range_page h hhere hresp
      rw [hkey.currentPairs h] at hkvs hcut
      have hlen := hcut.mp hmore
      obtain ⟨e, hlast, hmem, heq, hle⟩ := nextPage_of_cut h he.entries hkvs hlen
      obtain rfl : e.1 ++ [0] = next := Option.some.inj (heq.symm.trans hnext)
      obtain ⟨hj', he'⟩ := encoded_later hj he hrun hok
      obtain ⟨found, hpaged, hshown⟩ := ih (.inr ⟨e.1, rfl, rfl, hle⟩) hj' he'
        fun p hp => hsize p (List.mem_cons_of_mem _ hp)
      have hsub : (after KeyLt cursor (sys.store.currentPairs req)).take req.pageSize
          ⊆ sys.store.currentPairs req :=
        fun d hd => (Paging.mem_after.mp ((List.take_sublist _ _).subset hd)).1
      exact ⟨_ :: found, .more hlen hlast hpaged, .cons ⟨he.entries, hsub, hkvs⟩ hshown⟩

omit [Crates] [LawfulCrates] in
theorem forall₂_left {α β : Type} {R : α → β → Prop} {l : List α} {l' : List β}
    (h : List.Forall₂ R l l') {a : α} (ha : a ∈ l) : ∃ b, R a b := by
  induction h with
  | nil => cases ha
  | cons hab _ ih =>
      rcases List.mem_cons.mp ha with rfl | ha
      · exact ⟨_, hab⟩
      · exact ih ha

omit [Crates] [LawfulCrates] in
theorem forall₂_right {α β : Type} {R : α → β → Prop} {l : List α} {l' : List β}
    (h : List.Forall₂ R l l') {b : β} (hb : b ∈ l') : ∃ a ∈ l, R a b := by
  induction h with
  | nil => cases hb
  | cons hab _ ih =>
      rcases List.mem_cons.mp hb with rfl | hb
      · exact ⟨_, List.mem_cons_self, hab⟩
      · obtain ⟨a, ha, hR⟩ := ih hb
        exact ⟨a, List.mem_cons_of_mem _ ha, hR⟩

/-- **A list that is read in pages**, whatever happens to the server between them: its keys are in
order, each of them once; what is on a page was there when the page was read; a key that is there
every time a page is read, and passes the filters, is on one of them; and if the keys do not change
at all, the pages are what one range without a limit finds. -/
theorem paged_list {evs : List Event} {sys : System} {req : RangeRequest}
    {pages : List (System × RangeResponse)} (hrun : System.run ⟨fresh, none⟩ evs = some sys)
    (hok : Trace.Along System.step System.StepOk ⟨fresh, none⟩ evs) (hreq : req.Paginates)
    (hlist : Listing req req.key sys pages)
    (hsize : ∀ p ∈ pages, p.1.store.keys.size < 2 ^ 63) :
    (∃ keys : List Bytes, pages.flatMap (fun p => p.2.kvs.map blobKey) = keys.map some ∧
        keys.Pairwise KeyLt) ∧
      (∀ p ∈ pages, ∀ kv ∈ p.2.kvs, ∃ key ks, p.1.store.alive? key = some ks ∧
        matchesRange (resolveRange req.key req.rangeEnd) key = true ∧
        passesRevisionFilters req ks = true ∧ kv = responseKv req key ks.kvBytes) ∧
      (∀ key, matchesRange (resolveRange req.key req.rangeEnd) key = true →
        (∀ p ∈ pages, ∃ ks, p.1.store.alive? key = some ks ∧ passesRevisionFilters req ks = true) →
        ∃ p ∈ pages, some key ∈ p.2.kvs.map blobKey) ∧
      ((∀ p ∈ pages, p.1.store.keys = sys.store.keys) → pages.flatMap (fun p => p.2.kvs)
        = (sys.store.currentPairs req).map fun e => responseKv req e.1 e.2) := by
  obtain ⟨hj, he⟩ := encoded_of_run hrun hok
  obtain ⟨found, hpaged, hshown⟩ :=
    hlist.paged hreq (show GotTo req req.key none from .inl ⟨rfl, rfl⟩) hj he hsize
  have hviews : ∀ l ∈ pages.map fun p => p.1.store.currentPairs req,
      Paging.Ascending KeyLt l := by
    intro l hl
    obtain ⟨p, -, rfl⟩ := List.mem_map.mp hl
    exact ascending_currentPairs _ _
  -- `found` are the pages as pairs, and what holds of pages that go on in an ascending order holds
  -- of them
  refine ⟨⟨found.flatten.map (·.1), ?_, ?_⟩, ?_, ?_, ?_⟩
  · clear hlist hsize hpaged hviews
    induction hshown with
    | nil => rfl
    | cons hp _ ih =>
        rw [List.flatMap_cons, List.flatten_cons, List.map_append, List.map_append, ih, hp.keys]
  · exact List.pairwise_map.mpr (hpaged.ascending hviews).1
  · intro p hp kv hkv
    obtain ⟨page, hshow⟩ := forall₂_left hshown hp
    rw [hshow.kvs] at hkv
    obtain ⟨e, he, rfl⟩ := List.mem_map.mp hkv
    obtain ⟨hmatch, ks, hks, hpasses, hblob⟩ := mem_currentPairs.mp (hshow.sub he)
    exact ⟨e.1, ks, hks, hmatch, hpasses, by rw [hblob]⟩
  · intro key hmatch hthere
    have hviews' : ∀ l ∈ pages.map fun p => p.1.store.currentPairs req, ∃ b, (key, b) ∈ l := by
      intro l hl
      obtain ⟨p, hp, rfl⟩ := List.mem_map.mp hl
      obtain ⟨ks, hks, hpasses⟩ := hthere p hp
      exact ⟨ks.kvBytes, mem_currentPairs.mpr ⟨hmatch, ks, hks, hpasses, rfl⟩⟩
    obtain ⟨page, hpage, b, hb⟩ := hpaged.complete hviews (by rintro c ⟨⟩) hviews'
    obtain ⟨p, hp, hshow⟩ := forall₂_right hshown hpage
    refine ⟨p, hp, ?_⟩
    rw [hshow.keys]
    exact List.mem_map_of_mem (List.mem_map_of_mem hb)
  · intro hsame
    have hviews' : ∀ l ∈ pages.map fun p => p.1.store.currentPairs req,
        l = sys.store.currentPairs req := by
      intro l hl
      obtain ⟨p, hp, rfl⟩ := List.mem_map.mp hl
      rw [StoreState.currentPairs, StoreState.currentPairs, hsame p hp]
    have hfound := hpaged.eq_of_same (ascending_currentPairs _ _) hviews'
    rw [after, List.filter_eq_self.mpr fun e _ => decide_eq_true (by rintro c ⟨⟩)] at hfound
    rw [← hfound]
    clear hlist hsize hpaged hviews hsame hviews' hfound
    induction hshown with
    | nil => rfl
    | cons hp _ ih => rw [List.flatMap_cons, List.flatten_cons, List.map_append, ih, hp.kvs]

end

/-- Between two pages a key of the second one is deleted and another one put. -/
theorem paged_list_changed :
    ∃ sys sys' resp resp', System.run ⟨fresh, none⟩ [.request (.put { key := [1] }),
        .request (.put { key := [2] }), .request (.put { key := [3] })] = some sys ∧
      System.run sys [.request (.deleteRange { key := [3] }), .compactA, .restart 0,
        .request (.put { key := [4] })] = some sys' ∧
      range sys.store { key := [1], rangeEnd := [0], limit := 2 } = .ok resp ∧
      range sys'.store { key := [2, 0], rangeEnd := [0], limit := 2 } = .ok resp' ∧
      ∃ keys : List Bytes, [(sys, resp), (sys', resp')].flatMap (fun p => p.2.kvs.map blobKey)
        = keys.map some ∧ keys.Pairwise KeyLt := by
  have hrun : (System.run ⟨fresh, none⟩ [.request (.put { key := [1] }),
      .request (.put { key := [2] }), .request (.put { key := [3] })]).any (fun sys =>
        (range sys.store { key := [1], rangeEnd := [0], limit := 2 }).toOption.any fun resp =>
          (System.run sys [.request (.deleteRange { key := [3] }), .compactA, .restart 0,
            .request (.put { key := [4] })]).any fun sys' =>
              (range sys'.store { key := [2, 0], rangeEnd := [0], limit := 2 }).toOption.any
                fun resp' => decide ((resp.more = true ∧ resp.nextPage = some [2, 0] ∧
                  resp'.more = false) ∧
                  Trace.Along System.step System.StepOk sys [.request (.deleteRange { key := [3] }),
                    .compactA, .restart 0, .request (.put { key := [4] })] ∧
                  sys.store.keys.size < 2 ^ 63 ∧ sys'.store.keys.size < 2 ^ 63)) = true := by
    decide +kernel
  obtain ⟨sys, hsys, hrun⟩ := (Option.any_eq_true _ _).mp hrun
  obtain ⟨resp, hresp, hrun⟩ := (Option.any_eq_true _ _).mp hrun
  obtain ⟨sys', hsys', hrun⟩ := (Option.any_eq_true _ _).mp hrun
  obtain ⟨resp', hresp', hfacts⟩ := (Option.any_eq_true _ _).mp hrun
  obtain ⟨⟨hmore, hnext, hlast⟩, hok, hsize, hsize'⟩ := of_decide_eq_true hfacts
  have hresp := Prog.ok_of_toOption hresp
  have hresp' := Prog.ok_of_toOption hresp'
  have hreq : RangeRequest.Paginates { key := [1], rangeEnd := [0], limit := 2 } :=
    ⟨by decide, by decide, by decide, by decide, rfl, by decide⟩
  have hlist : Listing { key := [1], rangeEnd := [0], limit := 2 } [1] sys
      [(sys, resp), (sys', resp')] :=
    .more hresp hmore hnext hsys' hok (.last hresp' hlast)
  exact ⟨sys, sys', resp, resp', hsys, hsys', hresp, hresp',
    (paged_list hsys (by decide +kernel) hreq hlist (by simpa using ⟨hsize, hsize'⟩)).1⟩

section

variable [Crates]

/-! ### The end of a list -/

/-- A page is answered unless the interval is inverted or its size is out of proportion. -/
theorem range_startingAt {s : StoreState} {req : RangeRequest} (h : req.Paginates)
    (hfits : req.pageSize * 32 < 2 ^ 63) {key : Bytes} (hkey : key ≠ [])
    (hinv : (resolveRange key req.rangeEnd).inverted = false) :
    ∃ resp, range s (req.startingAt key) = .ok resp := by
  have hreserve : s.reserve (req.startingAt key) = .ok () := by
    have hcapacity : vecWithCapacity req.limit.toUInt64.toNat = .ok () :=
      if_neg (show ¬ req.pageSize * 32 > 2 ^ 63 - 1 by omega)
    unfold StoreState.reserve
    split
    · rfl
    · rw [show (req.startingAt key).limit = req.limit from rfl, if_pos h.limit, hcapacity]
  have hcurrent : range s (req.startingAt key)
      = (checkKey key).bind fun _ => rangeCurrent s (req.startingAt key) := by
    unfold range
    simp only [if_neg (show ¬ (req.startingAt key).revision > 0 from Int64.not_lt.mpr h.revision)]
    rfl
  rw [hcurrent, rangeCurrent_eq_page, currentFound_eq s hinv, hreserve, checkKey, if_neg hkey]
  exact ⟨_, rfl⟩

omit [Crates] in
theorem GotTo.ne_nil {req : RangeRequest} (h : req.Paginates) {key : Bytes}
    {cursor : Option Bytes} (hkey : GotTo req key cursor) : key ≠ [] := by
  rcases hkey with ⟨-, rfl⟩ | ⟨last, -, rfl, -⟩
  · exact h.key
  · simp

omit [Crates] in
/-- The next page starts at `range_end` at the latest. -/
theorem not_inverted_next {s : StoreState} {req : RangeRequest} (h : req.Paginates)
    {e : Bytes × Bytes} (he : e ∈ s.currentPairs req) :
    (resolveRange (e.1 ++ [0]) req.rangeEnd).inverted = false := by
  have hmatch := (mem_currentPairs.mp he).1
  rw [matchesRange_interval h.interval h.key, Bool.and_eq_true, below, Bool.or_eq_true] at hmatch
  rw [inverted_resolveRange, backwards]
  rcases hmatch.2 with hend | hlt
  · simp [of_decide_eq_true hend]
  · rw [bytesLt_eq_not_bytesLe req.rangeEnd, bytesLe_concat_zero, hlt]
    simp

variable [LawfulCrates]

/-- **A list that nothing changes under comes to its end**, in as many pages as its pairs fill. By
induction on the number of pairs that are still to come. -/
theorem paged_list_ends {evs : List Event} {sys : System} {req : RangeRequest}
    (hrun : System.run ⟨fresh, none⟩ evs = some sys)
    (hok : Trace.Along System.step System.StepOk ⟨fresh, none⟩ evs) (hreq : req.Paginates)
    (hinv : (resolveRange req.key req.rangeEnd).inverted = false)
    (hfits : req.pageSize * 32 < 2 ^ 63) (hsize : sys.store.keys.size < 2 ^ 63) :
    ∃ pages, Listing req req.key sys pages ∧ (∀ p ∈ pages, p.1 = sys) ∧
      pages.length ≤ (sys.store.currentPairs req).length / req.pageSize + 1 := by
  have he := (encoded_of_run hrun hok).2
  have hpos := (pageSize_pos hreq.limit).2
  -- by induction on the number of pairs that are still to come: a page with more behind it is full
  have hfrom : ∀ (n : Nat) (key : Bytes) (cursor : Option Bytes), GotTo req key cursor →
      (resolveRange key req.rangeEnd).inverted = false →
      (after KeyLt cursor (sys.store.currentPairs req)).length = n →
      ∃ pages, Listing req key sys pages ∧ (∀ p ∈ pages, p.1 = sys) ∧
        pages.length ≤ n / req.pageSize + 1 := by
    intro n
    induction n using Nat.strong_induction_on with
    | _ n ih =>
        intro key cursor hgot hinv hn
        obtain ⟨resp, hresp⟩ := range_startingAt (s := sys.store) hreq hfits (hgot.ne_nil hreq)
          hinv
        obtain ⟨hkvs, hcut⟩ := range_page hreq hsize hresp
        rw [hgot.currentPairs hreq] at hkvs hcut
        cases hmore : resp.more with
        | false => exact ⟨[(sys, resp)], .last hresp hmore, by simp, by simp⟩
        | true =>
            have hlen := hcut.mp hmore
            obtain ⟨e, hlast, hmem, hnext, hle⟩ := nextPage_of_cut hreq he.entries hkvs hlen
            have hrest : (after KeyLt (some e.1) (sys.store.currentPairs req)).length
                = n - req.pageSize := by
              rw [Paging.after_last (ascending_currentPairs _ _) hlast, List.length_drop, hn]
            obtain ⟨pages, hlist, hsame, hcount⟩ := ih (n - req.pageSize) (by omega) (e.1 ++ [0])
              (some e.1) (.inr ⟨e.1, rfl, rfl, hle⟩) (not_inverted_next hreq hmem) hrest
            have hidle : System.run sys [] = some sys := rfl
            refine ⟨(sys, resp) :: pages, .more hresp hmore hnext hidle trivial hlist, ?_, ?_⟩
            · intro p hp
              rcases List.mem_cons.mp hp with rfl | hp
              · rfl
              · exact hsame p hp
            · rw [List.length_cons, Nat.div_eq_sub_div hpos (by omega)]
              omega
  have hstart : GotTo req req.key none := .inl ⟨rfl, rfl⟩
  obtain ⟨pages, hlist, hsame, hcount⟩ := hfrom _ req.key none hstart hinv rfl
  refine ⟨pages, hlist, hsame, ?_⟩
  rwa [← hstart.currentPairs hreq] at hcount

end

/-- Three keys fill two pages of two. -/
theorem paged_list_ends_short :
    ∃ sys pages, System.run ⟨fresh, none⟩ [.request (.put { key := [1] }),
        .request (.put { key := [2] }), .request (.put { key := [3] })] = some sys ∧
      Listing { key := [1], rangeEnd := [9], limit := 2 } [1] sys pages ∧
      ∀ p ∈ pages, p.1 = sys := by
  have hrun : (System.run ⟨fresh, none⟩ [.request (.put { key := [1] }),
      .request (.put { key := [2] }), .request (.put { key := [3] })]).any (fun sys =>
        decide (sys.store.keys.size < 2 ^ 63)) = true := by
    decide +kernel
  obtain ⟨sys, hsys, hsize⟩ := (Option.any_eq_true _ _).mp hrun
  have hreq : RangeRequest.Paginates { key := [1], rangeEnd := [9], limit := 2 } :=
    ⟨by decide, by decide, by decide, by decide, rfl, by decide⟩
  obtain ⟨pages, hlist, hsame, -⟩ := paged_list_ends hsys (by decide +kernel) hreq (by decide)
    (by decide) (of_decide_eq_true hsize)
  exact ⟨sys, pages, hsys, hlist, hsame⟩

end Rudurru
