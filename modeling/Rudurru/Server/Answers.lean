import Rudurru.Server.HandoffSound

/-!
# Rudurru.Server.Answers

**Every create is answered once**, and a watcher is registered for it at most once: a create that
was read stands in one place, the queue, the flush or the replies (`Tracked`).

Rejecting duplicate ids reorders the creates with `swap_remove`; the rejected ones and the others
are still those that were there (`foldl_swapRemove_perm`).

`Tracked` lists the places. A create is in the queue, in the stage of the flush that serves it, or
among the replies, and no two of these overlap (`Tracked.nodup_places`). A step moves creates from
one place to the next: most steps move none (`Tracked.frame`, `Tracked.stage`), some answer creates
and take them off the way (`Tracked.answer`), and phase 2 registers what waited
(`Tracked.register`). The sum of all places never changes but by a create that is read.
-/

namespace Rudurru

/-! ### `swap_remove`

`Vec::swap_remove` puts the last element into the gap. Removing several positions from the last to
the first leaves the earlier ones alone, so what is removed is what stood there.
-/

section

variable {α : Type}

theorem swapRemove_concat_self (init : List α) (last : α) :
    swapRemove (init ++ [last]) init.length = init := by
  simp [swapRemove]

theorem swapRemove_concat_of_lt {init : List α} {i : Nat} (hi : i < init.length) (last : α) :
    swapRemove (init ++ [last]) i = init.set i last := by
  simp [swapRemove, List.set_append_left _ _ hi]

/-- The removed element and the rest. -/
theorem swapRemove_perm {l : List α} {i : Nat} {a : α} (h : l[i]? = some a) :
    (a :: swapRemove l i).Perm l := by
  obtain ⟨hi, rfl⟩ := List.getElem?_eq_some_iff.mp h
  rcases List.eq_nil_or_concat' l with rfl | ⟨init, last, rfl⟩
  · cases hi
  rw [List.length_append, List.length_singleton] at hi
  by_cases heq : i = init.length
  · subst heq
    rw [swapRemove_concat_self, List.getElem_concat_length rfl]
    exact (List.perm_append_singleton last init).symm
  · have hlt : i < init.length := by omega
    rw [swapRemove_concat_of_lt hlt, List.getElem_append_left hlt]
    calc List.Perm (init[i] :: init.set i last) (init[i] :: last :: init.eraseIdx i) :=
          (List.set_perm_cons_eraseIdx hlt last).cons _
      List.Perm _ (last :: init[i] :: init.eraseIdx i) := .swap _ _ _
      List.Perm _ (last :: init) := (List.getElem_cons_eraseIdx_perm hlt).cons _
      List.Perm _ (init ++ [last]) := (List.perm_append_singleton last init).symm

/-- Earlier positions are left alone. -/
theorem getElem?_swapRemove_of_lt {l : List α} {i j : Nat} (hi : i < l.length) (hj : j < i) :
    (swapRemove l i)[j]? = l[j]? := by
  rcases List.eq_nil_or_concat' l with rfl | ⟨init, last, rfl⟩
  · cases hi
  rw [List.length_append, List.length_singleton] at hi
  by_cases heq : i = init.length
  · subst heq
    rw [swapRemove_concat_self, List.getElem?_append_left hj]
  · have hlt : i < init.length := by omega
    rw [swapRemove_concat_of_lt hlt, List.getElem?_set_ne (by omega),
      List.getElem?_append_left (by omega)]

/-- Removing positions from the last to the first. -/
theorem foldl_swapRemove_perm {is : List Nat} {l : List α} (hdesc : is.Pairwise (· > ·))
    (hlt : ∀ i ∈ is, i < l.length) :
    (is.filterMap (l[·]?) ++ is.foldl swapRemove l).Perm l := by
  induction is generalizing l with
  | nil => exact .refl l
  | cons i is ih =>
      obtain ⟨hfirst, hrest⟩ := List.pairwise_cons.mp hdesc
      have hi : i < l.length := hlt i (by simp)
      have hperm : (l[i] :: swapRemove l i).Perm l :=
        swapRemove_perm (List.getElem?_eq_getElem hi)
      have hlength : (swapRemove l i).length + 1 = l.length := hperm.length_eq
      have hsame : is.filterMap ((swapRemove l i)[·]?) = is.filterMap (l[·]?) :=
        List.filterMap_congr fun j hj => getElem?_swapRemove_of_lt hi (hfirst j hj)
      have hih := ih (l := swapRemove l i) hrest fun j hj => by
        have := hfirst j hj
        omega
      rw [hsame] at hih
      rw [List.filterMap_cons_some (List.getElem?_eq_getElem hi), List.foldl_cons, List.cons_append]
      exact (hih.cons _).trans hperm

end

/-- Screening divides the creates. -/
theorem rejected_append_screened (s : StoreState) (active : List WatchContext) :
    ((duplicateIds s active).reverse.filterMap (active[·]?)
      ++ (screenDuplicates s active).active).Perm active := by
  have hsorted : ((duplicateIds s active).reverse).Pairwise (· > ·) :=
    List.pairwise_reverse.mpr (List.pairwise_lt_range.sublist List.filter_sublist)
  refine foldl_swapRemove_perm hsorted ?_
  intro i hi
  exact List.mem_range.mp (List.mem_filter.mp (List.mem_reverse.mp hi)).1

/-- The creates that are turned away for their ids, and the others. -/
theorem screenDuplicates_perm (s : StoreState) (active : List WatchContext) :
    ((screenDuplicates s active).replies.map (·.1)
      ++ (screenDuplicates s active).active.map (·.reply)).Perm (active.map (·.reply)) := by
  have hreplies : (screenDuplicates s active).replies.map (·.1)
      = ((duplicateIds s active).reverse.filterMap (active[·]?)).map (·.reply) := by
    simp only [screenDuplicates, List.map_filterMap]
    congr 1
    funext i
    cases active[i]? <;> rfl
  rw [hreplies, ← List.map_append]
  exact (rejected_append_screened s active).map _

/-! ### Creates under way

Where a create is, by its number and its watch id. In the stages before registration a flush has
creates that are waiting, in the one after it creates that are to be answered.
-/

/-- The create and its watch id. -/
def GlobalCreate.entry (c : GlobalCreate) : Nat × Int64 := (c.reply, c.watchId)

/-- The create and its watch id. -/
def WatchContext.entry (ctx : WatchContext) : Nat × Int64 := (ctx.reply, ctx.watchId)

/-- The creates in a flush that are not registered. -/
def FlushStage.waiting : FlushStage → List (Nat × Int64)
  | .drained batch => batch.map GlobalCreate.entry
  | .admitting _ batch active => active.map WatchContext.entry ++ batch.map GlobalCreate.entry
  | .opening active | .scanning _ _ active => active.map WatchContext.entry
  | .catchingUp st => st.active.map WatchContext.entry
  | .replying _ => []

/-- The creates in a flush that are registered but not answered. -/
def FlushStage.answering : FlushStage → List (Nat × Int64)
  | .replying active => active.map WatchContext.entry
  | _ => []

/-- The creates that are read and not registered. -/
def Handoff.waiting (h : Handoff) : List (Nat × Int64) :=
  (h.flush.elim [] fun f => f.stage.waiting) ++ h.queue.map GlobalCreate.entry

/-- The creates that are registered and not answered. -/
def Handoff.answering (h : Handoff) : List (Nat × Int64) :=
  h.flush.elim [] fun f => f.stage.answering

/-- The creates whose watchers are registered. -/
def Handoff.registered (h : Handoff) : List (Nat × Int64) :=
  h.watched.map fun p => (p.2.create, p.1.watchId)

/-- **Every create is in one place**: answered, or under way. A registered watcher belongs to a
create that is being answered or was answered so. -/
structure Tracked (h : Handoff) : Prop where
  length : h.sys.store.watchers.length = h.origins.length
  once : (h.replies.map (·.1) ++ (h.answering ++ h.waiting).map (·.1)).Perm
    (List.range h.issued.length)
  ids : ∀ e ∈ h.registered ++ (h.answering ++ h.waiting), h.issued[e.1]? = some e.2
  created : ∀ r ∈ h.replies, r.2.created = true → h.issued[r.1]? = some r.2.watchId
  answered : ∀ e ∈ h.registered, e.1 ∈ h.answering.map (·.1) ∨
    ∃ resp, (e.1, resp) ∈ h.replies ∧ resp.created = true
  nodup : (h.registered.map (·.1)).Nodup

theorem tracked_start {sys : System} (hw : sys.store.watchers = []) : Tracked (.start sys) where
  length := by simp [Handoff.start, hw]
  once := by simp [Handoff.start, Handoff.answering, Handoff.waiting]
  ids := by simp [Handoff.start, Handoff.registered, Handoff.watched, Handoff.answering,
    Handoff.waiting]
  created := by simp [Handoff.start]
  answered := by simp [Handoff.registered, Handoff.watched, Handoff.start]
  nodup := by simp [Handoff.registered, Handoff.watched, Handoff.start]

/-- The places are disjoint. -/
theorem Tracked.nodup_places {h : Handoff} (ht : Tracked h) :
    (h.replies.map (·.1) ++ (h.answering.map (·.1) ++ h.waiting.map (·.1))).Nodup := by
  rw [← List.map_append]
  exact ht.once.nodup_iff.mpr List.nodup_range

/-- A create that was answered is not under way. -/
theorem Tracked.not_waiting_of_answered {h : Handoff} (ht : Tracked h) {n : Nat}
    {resp : WatchResponse} (hr : (n, resp) ∈ h.replies) : n ∉ h.waiting.map (·.1) := by
  intro hn
  have hdisjoint := (List.nodup_append.mp ht.nodup_places).2.2
  exact hdisjoint n (List.mem_map_of_mem hr) n (List.mem_append_right _ hn) rfl

/-- A create that waits is not registered. -/
theorem Tracked.not_registered_of_waiting {h : Handoff} (ht : Tracked h) {n : Nat}
    (hn : n ∈ h.waiting.map (·.1)) : n ∉ h.registered.map (·.1) := by
  intro hregistered
  obtain ⟨e, he, rfl⟩ := List.mem_map.mp hregistered
  rcases ht.answered e he with hanswering | ⟨resp, hresp, -⟩
  · have hunder := (List.nodup_append.mp ht.nodup_places).2.1
    exact (List.nodup_append.mp hunder).2.2 _ hanswering _ hn rfl
  · exact ht.not_waiting_of_answered hresp hn

/-- A step that answers nothing and at most takes watchers away. -/
theorem Tracked.frame {h h' : Handoff} (ht : Tracked h)
    (hlength : h'.sys.store.watchers.length = h'.origins.length) (hissued : h'.issued = h.issued)
    (hreplies : h'.replies = h.replies) (hanswering : h'.answering = h.answering)
    (hwaiting : h'.waiting = h.waiting) (hregistered : h'.registered.Sublist h.registered) :
    Tracked h' where
  length := hlength
  once := by
    rw [hissued, hreplies, hanswering, hwaiting]
    exact ht.once
  ids := by
    rw [hissued, hanswering, hwaiting]
    intro e he
    rcases List.mem_append.mp he with he | he
    · exact ht.ids e (List.mem_append_left _ (hregistered.subset he))
    · exact ht.ids e (List.mem_append_right _ he)
  created := by
    rw [hissued, hreplies]
    exact ht.created
  answered := by
    rw [hreplies, hanswering]
    exact fun e he => ht.answered e (hregistered.subset he)
  nodup := ht.nodup.sublist (hregistered.map _)

/-! ### One step -/

theorem entry_of_admitCreate {s : StoreState} {c : GlobalCreate} {ctx : WatchContext}
    (h : admitCreate s c = .ok ctx) : ctx.entry = c.entry := by
  obtain ⟨-, rfl⟩ := admitCreate_eq_ok h
  rfl

theorem created_of_admitCreate {s : StoreState} {c : GlobalCreate} {resp : WatchResponse}
    (h : admitCreate s c = .error resp) : resp.created = false := by
  obtain rfl | rfl := admitCreate_eq_error h
  · rfl
  · rfl

theorem created_of_screenDuplicates {s : StoreState} {active : List WatchContext}
    {r : Nat × WatchResponse} (h : r ∈ (screenDuplicates s active).replies) :
    r.2.created = false := by
  obtain ⟨i, -, hi⟩ := List.mem_filterMap.mp h
  obtain ⟨ctx, -, rfl⟩ := Option.map_eq_some_iff.mp hi
  rfl

theorem waiting_swap (f : FlushRun) (contents : Bytes) :
    (f.swap contents).stage.waiting = f.stage.waiting ∧
      (f.swap contents).stage.answering = f.stage.answering := by
  unfold FlushRun.swap
  cases hstage : f.stage with
  | scanning opened orphan active => cases orphan <;> exact ⟨rfl, rfl⟩
  | drained _ | admitting _ _ _ | opening _ | catchingUp _ | replying _ => exact ⟨rfl, rfl⟩

section

variable [Crates]

theorem entry_flushPhase1 (file : Bytes) (rev : UInt64) (active : List WatchContext) :
    (flushPhase1 file rev active).active.map WatchContext.entry
      = active.map WatchContext.entry := by
  obtain ⟨sent, hactive, -⟩ := changes_phase1 rev (scanKvFile file 0).1 { prevKvMap := ∅, active }
  rw [flushPhase1, hactive, List.map_map]
  rfl

theorem entry_flushPhase2 (file : Bytes) (rev : UInt64) (offset : Nat) (st : ReplayState) :
    (flushPhase2 file rev offset st).active.map WatchContext.entry
      = st.active.map WatchContext.entry := by
  obtain ⟨sent, hactive, -⟩ := changes_phase2 rev (scanKvFile file offset).1 st
  rw [flushPhase2, hactive, List.map_map]
  rfl

omit [Crates] in
theorem waiting_of_flush {h : Handoff} {f : FlushRun} (hf : h.flush = some f) :
    h.waiting = f.stage.waiting ++ h.queue.map GlobalCreate.entry := by
  rw [Handoff.waiting, hf]
  rfl

omit [Crates] in
theorem answering_of_flush {h : Handoff} {f : FlushRun} (hf : h.flush = some f) :
    h.answering = f.stage.answering := by
  rw [Handoff.answering, hf]
  rfl

/-- Live notification leaves the watch ids alone. -/
theorem registered_published {h : Handoff} {s' : StoreState} {ws : List Write}
    (hpub : Published h.sys.store ws s') :
    ({ h with sys := { h.sys with store := s' } } : Handoff).registered = h.registered := by
  rw [Handoff.registered, Handoff.watched, hpub.watchers, List.zip_map_left, List.map_map]
  refine List.map_congr_left ?_
  intro p _
  obtain ⟨sent, hsent, -⟩ := notifyWrites_eq hpub.rev_eq p.1
  show (p.2.create, (notifyWrites ws p.1).watchId) = (p.2.create, p.1.watchId)
  rw [hsent]

omit [Crates] in
theorem registered_cancel {h : Handoff}
    (hlen : h.sys.store.watchers.length = h.origins.length) (watchId : Int64) :
    ({ h with
      sys := { h.sys with store := h.sys.store.cancelWatcher watchId }
      origins := h.cancelOrigins watchId } : Handoff).registered
      = h.registered.filter (·.2 ≠ watchId) := by
  rw [Handoff.registered, Handoff.watched, watched_cancel hlen, Handoff.registered,
    List.filter_map]
  rfl

omit [Crates] in
/-- A step of the flush that answers nothing and registers nothing. -/
theorem Tracked.stage {h : Handoff} (ht : Tracked h) {f f' : FlushRun} (hf : h.flush = some f)
    (hwaiting : f'.stage.waiting = f.stage.waiting)
    (hanswering : f'.stage.answering = f.stage.answering) :
    Tracked { h with flush := some f' } := by
  refine ht.frame ht.length rfl rfl ?_ ?_ (.refl _)
  · rw [answering_of_flush hf, ← hanswering]
    rfl
  · rw [waiting_of_flush hf, ← hwaiting]
    rfl

omit [Crates] in
/-- A step that answers creates. -/
theorem Tracked.answer {h h' : Handoff} (ht : Tracked h) {news : List (Nat × WatchResponse)}
    (hwatched : h'.watched = h.watched)
    (hlength : h'.sys.store.watchers.length = h'.origins.length) (hissued : h'.issued = h.issued)
    (hreplies : h'.replies = h.replies ++ news)
    (hperm : (news.map (·.1) ++ (h'.answering ++ h'.waiting).map (·.1)).Perm
      ((h.answering ++ h.waiting).map (·.1)))
    (hsubset : ∀ e ∈ h'.answering ++ h'.waiting, e ∈ h.answering ++ h.waiting)
    (hcreated : ∀ r ∈ news, r.2.created = true → h.issued[r.1]? = some r.2.watchId)
    (hanswered : ∀ n ∈ h.answering.map (·.1), n ∈ h'.answering.map (·.1) ∨
      ∃ resp, (n, resp) ∈ news ∧ resp.created = true) :
    Tracked h' where
  length := hlength
  once := by
    rw [hissued, hreplies, List.map_append, List.append_assoc]
    exact (hperm.append_left _).trans ht.once
  ids := by
    intro e he
    rw [Handoff.registered, hwatched] at he
    rw [hissued]
    rcases List.mem_append.mp he with he | he
    · exact ht.ids e (List.mem_append_left _ he)
    · exact ht.ids e (List.mem_append_right _ (hsubset e he))
  created := by
    intro r hr
    rw [hreplies] at hr
    rw [hissued]
    rcases List.mem_append.mp hr with hr | hr
    · exact ht.created r hr
    · exact hcreated r hr
  answered := by
    intro e he
    rw [Handoff.registered, hwatched] at he
    rw [hreplies]
    rcases ht.answered e he with hanswering | ⟨resp, hresp, hcreated⟩
    · rcases hanswered e.1 hanswering with hstill | ⟨resp, hresp, hcreated⟩
      · exact .inl hstill
      · exact .inr ⟨resp, List.mem_append_right _ hresp, hcreated⟩
    · exact .inr ⟨resp, List.mem_append_left _ hresp, hcreated⟩
  nodup := by
    rw [Handoff.registered, hwatched]
    exact ht.nodup

omit [Crates] in
/-- A create is turned away. -/
theorem Tracked.refuse {h : Handoff} (ht : Tracked h) {f : FlushRun} {rev : UInt64}
    {c : GlobalCreate} {batch : List GlobalCreate} {active : List WatchContext}
    {resp : WatchResponse} (hf : h.flush = some f)
    (hstage : f.stage = .admitting rev (c :: batch) active) (hrefused : resp.created = false) :
    Tracked
      { h with
        replies := h.replies ++ [(c.reply, resp)]
        flush := some { f with stage := .admitting rev batch active } } := by
  have hwaiting := waiting_of_flush hf
  have hanswering := answering_of_flush hf
  rw [hstage] at hwaiting hanswering
  refine ht.answer rfl ht.length rfl rfl ?_ ?_ ?_ ?_
  · rw [hwaiting, hanswering]
    simp only [Handoff.answering, Handoff.waiting, Option.elim, FlushStage.answering,
      FlushStage.waiting, List.nil_append, List.map_append, List.map_cons, List.map_nil,
      GlobalCreate.entry, List.append_assoc, List.cons_append]
    exact List.perm_middle.symm
  · intro e he
    rw [hwaiting, hanswering]
    simp only [Handoff.answering, Handoff.waiting, Option.elim, FlushStage.answering,
      FlushStage.waiting, List.nil_append, List.mem_append, List.map_cons, List.mem_cons] at he ⊢
    rcases he with (he | he) | he
    · exact .inl (.inl he)
    · exact .inl (.inr (.inr he))
    · exact .inr he
  · intro r hr hcreated
    rw [List.mem_singleton.mp hr, hrefused] at hcreated
    cases hcreated
  · intro n hn
    rw [hanswering] at hn
    cases hn

omit [Crates] in
/-- Creates are turned away for their ids. -/
theorem Tracked.screen {h : Handoff} (ht : Tracked h) {f : FlushRun} {rev : UInt64}
    {active : List WatchContext} (hf : h.flush = some f)
    (hstage : f.stage = .admitting rev [] active) :
    Tracked
      { h with
        replies := h.replies ++ (screenDuplicates h.sys.store active).replies
        flush := if (screenDuplicates h.sys.store active).active = [] then none
          else some { f with
            stage := .opening (screenDuplicates h.sys.store active).active } } := by
  have hwaiting := waiting_of_flush hf
  have hanswering := answering_of_flush hf
  rw [hstage] at hwaiting hanswering
  generalize hflush : (if (screenDuplicates h.sys.store active).active = [] then none
    else some { f with stage := .opening (screenDuplicates h.sys.store active).active }) = flush
  have hwaiting' : (flush.elim [] fun f => f.stage.waiting)
      = (screenDuplicates h.sys.store active).active.map WatchContext.entry := by
    subst hflush
    split
    · next hnil => rw [hnil]; rfl
    · rfl
  have hanswering' : (flush.elim [] fun f => f.stage.answering) = [] := by
    subst hflush
    split <;> rfl
  -- screening moves each request of the batch to the replies or leaves it in the batch
  have hperm := screenDuplicates_perm h.sys.store active
  refine ht.answer rfl ht.length rfl rfl ?_ ?_ ?_ ?_
  · rw [Handoff.answering, Handoff.waiting, hanswering', hwaiting', hwaiting, hanswering]
    simp only [FlushStage.answering, FlushStage.waiting, List.nil_append, List.map_append,
      List.map_map, List.map_nil, List.append_nil, ← List.append_assoc]
    exact hperm.append_right _
  · intro e he
    rw [Handoff.answering, Handoff.waiting, hanswering', hwaiting', List.nil_append] at he
    rw [hwaiting, hanswering]
    refine List.mem_append_right _ ?_
    rcases List.mem_append.mp he with he | he
    · obtain ⟨ctx, hctx, rfl⟩ := List.mem_map.mp he
      refine List.mem_append_left _ (List.mem_append_left _ ?_)
      exact List.mem_map_of_mem (mem_of_mem_screenDuplicates hctx)
    · exact List.mem_append_right _ he
  · intro r hr hcreated
    rw [created_of_screenDuplicates hr] at hcreated
    cases hcreated
  · intro n hn
    rw [hanswering] at hn
    cases hn

omit [Crates] in
/-- A registered create is answered. -/
theorem Tracked.reply {h : Handoff} (ht : Tracked h) {f : FlushRun} {ctx : WatchContext}
    {active : List WatchContext} (hf : h.flush = some f)
    (hstage : f.stage = .replying (ctx :: active)) :
    Tracked
      { h with
        replies := h.replies ++ [(ctx.reply, createdResponse h.sys.store ctx)]
        flush := if active = [] then none else some { f with stage := .replying active } } := by
  have hwaiting := waiting_of_flush hf
  have hanswering := answering_of_flush hf
  rw [hstage] at hwaiting hanswering
  generalize hflush : (if active = [] then none
    else some { f with stage := .replying active }) = flush
  have hwaiting' : (flush.elim [] fun f => f.stage.waiting) = [] := by
    subst hflush
    split <;> rfl
  have hanswering' : (flush.elim [] fun f => f.stage.answering)
      = active.map WatchContext.entry := by
    subst hflush
    split
    · next hnil => rw [hnil]; rfl
    · rfl
  refine ht.answer rfl ht.length rfl rfl ?_ ?_ ?_ ?_
  · rw [Handoff.answering, Handoff.waiting, hanswering', hwaiting', hwaiting, hanswering]
    exact .refl _
  · intro e he
    rw [Handoff.answering, Handoff.waiting, hanswering', hwaiting'] at he
    rw [hwaiting, hanswering]
    rcases List.mem_append.mp he with he | he
    · exact List.mem_append_left _ (List.mem_cons_of_mem _ he)
    · exact List.mem_append_right _ he
  · intro r hr _
    rw [List.mem_singleton.mp hr]
    refine ht.ids ctx.entry (List.mem_append_right _ (List.mem_append_left _ ?_))
    rw [hanswering]
    exact List.mem_cons_self
  · intro n hn
    rw [hanswering] at hn
    rcases List.mem_cons.mp hn with rfl | hn
    · exact .inr ⟨_, List.mem_singleton_self _, rfl⟩
    · refine .inl ?_
      rw [Handoff.answering, hanswering']
      exact hn

omit [Crates] in
/-- A create that is read gets the next number. -/
theorem Tracked.create {h : Handoff} (ht : Tracked h) (req : WatchCreateRequest) :
    Tracked (h.create req) := by
  -- it joins the end of the queue
  obtain ⟨c, hreply, hqueue, hissued⟩ : ∃ c : GlobalCreate, c.reply = h.issued.length ∧
      (h.create req).queue = h.queue ++ [c] ∧ (h.create req).issued = h.issued ++ [c.watchId] :=
    ⟨_, rfl, rfl, rfl⟩
  have hwaiting : (h.create req).waiting = h.waiting ++ [(h.issued.length, c.watchId)] := by
    rw [Handoff.waiting, hqueue, List.map_append, ← List.append_assoc, ← hreply]
    rfl
  have hold : ∀ {n : Nat} {w : Int64}, h.issued[n]? = some w →
      (h.create req).issued[n]? = some w := by
    intro n w hw
    obtain ⟨hn, -⟩ := List.getElem?_eq_some_iff.mp hw
    rw [hissued, List.getElem?_append_left hn]
    exact hw
  have hnew : (h.create req).issued[h.issued.length]? = some c.watchId := by
    rw [hissued]
    exact List.getElem?_concat_length
  refine ⟨ht.length, ?_, ?_, ?_, ht.answered, ht.nodup⟩
  · rw [hwaiting, hissued, List.length_append, List.length_singleton, List.range_succ,
      ← List.append_assoc, List.map_append, ← List.append_assoc]
    exact ht.once.append_right _
  · intro e he
    rw [hwaiting, ← List.append_assoc, ← List.append_assoc] at he
    rcases List.mem_append.mp he with he | he
    · rw [List.append_assoc] at he
      exact hold (ht.ids e he)
    · obtain rfl := List.mem_singleton.mp he
      exact hnew
  · intro r hr hcreated
    exact hold (ht.created r hr hcreated)

/-- Phase 2 registers creates that waited. -/
theorem Tracked.register {h : Handoff} (ht : Tracked h) {f : FlushRun} {st : ReplayState}
    {active : List WatchContext} (hf : h.flush = some f) (hstage : f.stage = .catchingUp st)
    (hactive : active.map WatchContext.entry = st.active.map WatchContext.entry) :
    Tracked
      { h with
        sys := { h.sys with
          store := active.foldl (fun s ctx => s.registerWatcher ctx.registration) h.sys.store }
        flush := some { f with stage := .replying active }
        origins := h.origins ++ active.map (f.origin h.sys.store.wal) } := by
  have hwatchers := watchers_registerAll active h.sys.store
  have hwaiting : h.waiting
      = active.map WatchContext.entry ++ h.queue.map GlobalCreate.entry := by
    rw [waiting_of_flush hf, hstage, hactive]
    rfl
  have hanswering : h.answering = [] := by
    rw [answering_of_flush hf, hstage]
    rfl
  -- the batch goes over from the waiting to the registered, in one step
  have hregistered : Handoff.registered
      { h with
        sys := { h.sys with
          store := active.foldl (fun s ctx => s.registerWatcher ctx.registration) h.sys.store }
        flush := some { f with stage := .replying active }
        origins := h.origins ++ active.map (f.origin h.sys.store.wal) }
      = h.registered ++ active.map WatchContext.entry := by
    rw [Handoff.registered, Handoff.watched]
    dsimp only
    rw [hwatchers, List.zip_append ht.length, List.map_append, List.zip_map', List.map_map]
    rfl
  have hids := ht.ids
  rw [hanswering, hwaiting, List.nil_append] at hids
  refine ⟨?_, ?_, ?_, ht.created, ?_, ?_⟩
  · dsimp only
    rw [hwatchers, List.length_append, List.length_append, List.length_map, List.length_map,
      ht.length]
  · have honce := ht.once
    rw [hanswering, hwaiting, List.nil_append] at honce
    exact honce
  · intro e he
    rw [hregistered] at he
    refine hids e ?_
    simp only [Handoff.answering, Handoff.waiting, Option.elim, FlushStage.answering,
      FlushStage.waiting, List.nil_append, List.mem_append] at he ⊢
    rcases he with (he | he) | he | he
    · exact .inl he
    · exact .inr (.inl he)
    · exact .inr (.inl he)
    · exact .inr (.inr he)
  · intro e he
    rw [hregistered] at he
    rcases List.mem_append.mp he with he | he
    · rcases ht.answered e he with hnone | hresp
      · rw [hanswering] at hnone
        cases hnone
      · exact .inr hresp
    · exact .inl (List.mem_map_of_mem he)
  · rw [hregistered, List.map_append, List.nodup_append]
    have hplaces := (List.nodup_append.mp ht.nodup_places).2.1
    rw [hanswering, hwaiting, List.map_nil, List.nil_append, List.map_append] at hplaces
    refine ⟨ht.nodup, (List.nodup_append.mp hplaces).1, ?_⟩
    intro n hn m hm heq
    subst heq
    -- no place is registered twice: a waiting one was not registered before
    refine ht.not_registered_of_waiting ?_ hn
    rw [hwaiting, List.map_append]
    exact List.mem_append_left _ hm

/-- **One step keeps track of the creates.** Each kind of event is one of the moves above: nothing
is answered, something is answered, or the batch is registered. -/
theorem Tracked.step {h h' : Handoff} {ev : HandoffEvent} (ht : Tracked h)
    (hs : h.sys.store.wal.faults = []) (hstep : h.step ev = some h') : Tracked h' := by
  cases Handoff.moves_of_step hs hstep with
  | @request q ws s' hq hpub =>
      refine ht.frame ?_ rfl rfl rfl rfl ?_
      · dsimp only
        rw [hpub.watchers, List.length_map]
        exact ht.length
      · rw [registered_published hpub]
  | @cancelWatch watchId =>
      refine ht.frame (length_cancel ht.length watchId) rfl rfl rfl rfl ?_
      rw [registered_cancel ht.length]
      exact List.filter_sublist
  | compactA | compactB | compactFails => exact ht.frame ht.length rfl rfl rfl rfl (.refl _)
  -- a swap leaves the stage where it is, but for the file phase 1 reads
  | compactC =>
      cases hf : h.flush with
      | none =>
          rw [Option.map_none, ← hf]
          exact ht.frame ht.length rfl rfl rfl rfl (.refl _)
      | some f =>
          obtain ⟨hwaiting, hanswering⟩ := waiting_swap f h.sys.store.wal.contents
          have hstage := ht.stage hf hwaiting hanswering
          exact hstage.frame hstage.length rfl rfl rfl rfl (.refl _)
  | restart hopen =>
      obtain ⟨_, _, _, _, _, rfl⟩ := openStore_eq_ok hopen
      exact tracked_start rfl
  | create => exact ht.create _
  | checkpoint hnone =>
      refine ht.frame ht.length rfl rfl ?_ ?_ (.refl _)
      · rw [Handoff.answering, Handoff.answering, hnone]
        rfl
      · rw [Handoff.waiting, Handoff.waiting, hnone]
        -- the batch is the front of the queue, which keeps the rest
        show (h.queue.take _).map _ ++ (h.queue.drop _).map _ = _
        rw [← List.map_append, List.take_append_drop]
        rfl
  | compactRev hf hstage =>
      refine ht.stage hf ?_ ?_ <;> rw [hstage] <;> rfl
  | refuse hf hstage hresp => exact ht.refuse hf hstage (created_of_admitCreate hresp)
  | admission hf hstage hctx =>
      refine ht.stage hf ?_ ?_
      · rw [hstage]
        show (_ ++ [_]).map _ ++ _ = _ ++ (_ :: _).map _
        rw [List.map_append, List.append_assoc, List.map_singleton, entry_of_admitCreate hctx]
        rfl
      · rw [hstage]
        rfl
  | screen hf hstage => exact ht.screen hf hstage
  | openWal hf hstage =>
      refine ht.stage hf ?_ ?_ <;> rw [hstage] <;> rfl
  | phase1 hf hstage =>
      refine ht.stage hf ?_ ?_
      · rw [hstage]
        exact entry_flushPhase1 _ _ _
      · rw [hstage]
        rfl
  | phase2 hf hstage => exact ht.register hf hstage (entry_flushPhase2 _ _ _ _)
  | reply hf hstage => exact ht.reply hf hstage

end

end Rudurru
