import Mathlib

/-!
# Rudurru.Lib.Paging

Reading an ordered list page by page while it changes.

`views` are what the list is each time a page is read. A page is cut off after `limit` entries, and
the next one goes on behind its last key. Whatever happens in between, what is read is in order
(`Paged.ascending`), it was there when its page was read (`Paged.mem`), and an entry that is there
all the time is not missed (`Paged.complete`). If nothing changes, the pages are the list
(`Paged.eq_of_same`).
-/

namespace Paging

variable {κ β : Type} (r : κ → κ → Prop)

/-- The entries behind a key. -/
def Behind (cursor : Option κ) (key : κ) : Prop := ∀ c ∈ cursor, r c key

variable [DecidableRel r]

instance (cursor : Option κ) (key : κ) : Decidable (Behind r cursor key) :=
  inferInstanceAs (Decidable (∀ c ∈ cursor, r c key))

/-- What is left of a list behind a key. -/
def after (cursor : Option κ) (l : List (κ × β)) : List (κ × β) :=
  l.filter fun e => Behind r cursor e.1

/-- The list was read in pages, each of the view in its turn: a last one that is not cut off, and
before it full ones. -/
inductive Paged (limit : Nat) : Option κ → List (List (κ × β)) → List (List (κ × β)) → Prop
  | last {cursor l} : (after r cursor l).length ≤ limit →
      Paged limit cursor [l] [after r cursor l]
  | more {cursor l e views pages} : limit < (after r cursor l).length →
      ((after r cursor l).take limit).getLast? = some e → Paged limit (some e.1) views pages →
      Paged limit cursor (l :: views) ((after r cursor l).take limit :: pages)

/-- In strictly ascending order of the keys. -/
def Ascending (l : List (κ × β)) : Prop := l.Pairwise fun a b => r a.1 b.1

section

variable {r} {limit : Nat} {cursor : Option κ} {l : List (κ × β)} {e : κ × β}

theorem mem_after {e : κ × β} : e ∈ after r cursor l ↔ e ∈ l ∧ Behind r cursor e.1 := by
  rw [after, List.mem_filter, decide_eq_true_eq]

theorem Ascending.after (h : Ascending r l) (cursor : Option κ) : Ascending r (after r cursor l) :=
  h.sublist List.filter_sublist

omit [DecidableRel r] in
/-- The entries of a page come before its last one. -/
theorem Ascending.lt_last (h : Ascending r l) (he : (l.take limit).getLast? = some e) {d : κ × β}
    (hd : d ∈ l.take limit) : d = e ∨ r d.1 e.1 := by
  obtain ⟨init, hinit⟩ := List.getLast?_eq_some_iff.mp he
  have hpage : Ascending r (init ++ [e]) := hinit ▸ h.sublist (List.take_sublist _ _)
  rw [hinit] at hd
  rcases List.mem_append.mp hd with hd | hd
  · exact .inr ((List.pairwise_append.mp hpage).2.2 d hd e List.mem_cons_self)
  · exact .inl (List.mem_singleton.mp hd)

omit [DecidableRel r] in
/-- What is cut off comes behind the last entry of the page. -/
theorem Ascending.last_lt (h : Ascending r l) (he : (l.take limit).getLast? = some e) {d : κ × β}
    (hd : d ∈ l.drop limit) : r e.1 d.1 := by
  have hsplit : Ascending r (l.take limit ++ l.drop limit) := by
    rw [List.take_append_drop]
    exact h
  exact (List.pairwise_append.mp hsplit).2.2 e (List.mem_of_getLast? he) d hd

variable [IsTrans κ r]

/-- The last entry of a page is behind the cursor, so what is behind it is too. -/
theorem behind_of_last (he : ((after r cursor l).take limit).getLast? = some e) {key : κ}
    (hkey : r e.1 key) : Behind r cursor key := by
  intro c hc
  have hmem := (List.take_sublist _ _).subset (List.mem_of_getLast? he)
  exact IsTrans.trans _ _ _ ((mem_after.mp hmem).2 c hc) hkey

/-- What is left behind the last entry of a page is what was cut off. -/
theorem after_last [Std.Irrefl r] (h : Ascending r l)
    (he : ((after r cursor l).take limit).getLast? = some e) :
    after r (some e.1) l = (after r cursor l).drop limit := by
  have hagain : after r (some e.1) l = after r (some e.1) (after r cursor l) := by
    rw [after, after, after, List.filter_filter]
    refine List.filter_congr fun d _ => ?_
    by_cases hd : Behind r (some e.1) d.1
    · simp [hd, behind_of_last he (hd e.1 rfl)]
    · simp [hd]
  have hcut := h.after cursor
  rw [hagain]
  generalize after r cursor l = l' at he hcut ⊢
  conv_lhs => rw [← List.take_append_drop limit l']
  have htake : after r (some e.1) (l'.take limit) = [] := by
    refine List.filter_eq_nil_iff.mpr fun d hd hbehind => ?_
    have hlt : r e.1 d.1 := of_decide_eq_true hbehind e.1 rfl
    rcases hcut.lt_last he hd with rfl | hgt
    · exact Std.Irrefl.irrefl _ hlt
    · exact Std.Irrefl.irrefl _ (IsTrans.trans _ _ _ hlt hgt)
  have hdrop : after r (some e.1) (l'.drop limit) = l'.drop limit := by
    refine List.filter_eq_self.mpr fun d hd => decide_eq_true ?_
    rintro c ⟨⟩
    exact hcut.last_lt he hd
  rw [after, List.filter_append, ← after, ← after, htake, hdrop, List.nil_append]

/-! ### What was read -/

variable {views pages : List (List (κ × β))}

/-- **In order**, from one page to the next. A page begins behind the last key of the page before
it. -/
theorem Paged.ascending (h : Paged r limit cursor views pages)
    (hviews : ∀ l ∈ views, Ascending r l) :
    Ascending r pages.flatten ∧ ∀ d ∈ pages.flatten, Behind r cursor d.1 := by
  induction h with
  | @last cursor l _ =>
      rw [List.flatten_singleton]
      exact ⟨(hviews l List.mem_cons_self).after cursor, fun d hd => (mem_after.mp hd).2⟩
  | @more cursor l e views pages _ he _ ih =>
      obtain ⟨hrest, hbehind⟩ := ih fun l' hl' => hviews l' (List.mem_cons_of_mem _ hl')
      have hpage := (hviews l List.mem_cons_self).after cursor
      rw [List.flatten_cons]
      refine ⟨List.pairwise_append.mpr ⟨hpage.sublist (List.take_sublist _ _), hrest, ?_⟩, ?_⟩
      · intro a ha d hd
        have hd := hbehind d hd e.1 rfl
        rcases hpage.lt_last he ha with rfl | ha
        · exact hd
        · exact IsTrans.trans _ _ _ ha hd
      · intro d hd
        rcases List.mem_append.mp hd with hd | hd
        · exact (mem_after.mp ((List.take_sublist _ _).subset hd)).2
        · exact behind_of_last he (hbehind d hd e.1 rfl)

omit [IsTrans κ r] in
/-- **What is on a page was there** when the page was read. -/
theorem Paged.mem (h : Paged r limit cursor views pages) :
    List.Forall₂ (fun l page => page ⊆ l) views pages := by
  induction h with
  | last _ => exact .cons (fun d hd => (mem_after.mp hd).1) .nil
  | more _ _ _ ih =>
      exact .cons (fun d hd => (mem_after.mp ((List.take_sublist _ _).subset hd)).1) ih

omit [IsTrans κ r] in
/-- **What is there all the time is read.** It is on the first page that ends behind it, or on the
last one. -/
theorem Paged.complete (h : Paged r limit cursor views pages)
    (hviews : ∀ l ∈ views, Ascending r l) {key : κ} (hkey : Behind r cursor key)
    (hthere : ∀ l ∈ views, ∃ v, (key, v) ∈ l) : ∃ page ∈ pages, ∃ v, (key, v) ∈ page := by
  induction h with
  | @last cursor l _ =>
      obtain ⟨v, hv⟩ := hthere l List.mem_cons_self
      exact ⟨_, List.mem_cons_self, v, mem_after.mpr ⟨hv, hkey⟩⟩
  | @more cursor l e views pages _ he _ ih =>
      obtain ⟨v, hv⟩ := hthere l List.mem_cons_self
      have hleft : (key, v) ∈ (after r cursor l).take limit ++ (after r cursor l).drop limit := by
        rw [List.take_append_drop]
        exact mem_after.mpr ⟨hv, hkey⟩
      rcases List.mem_append.mp hleft with hpage | hcut
      · exact ⟨_, List.mem_cons_self, v, hpage⟩
      · have hlast := ((hviews l List.mem_cons_self).after cursor).last_lt he hcut
        obtain ⟨page, hpage, hread⟩ := ih (fun l' hl' => hviews l' (List.mem_cons_of_mem _ hl'))
          (by rintro c ⟨⟩; exact hlast) fun l' hl' => hthere l' (List.mem_cons_of_mem _ hl')
        exact ⟨page, List.mem_cons_of_mem _ hpage, hread⟩

/-- **If nothing changes, the pages are the list.** -/
theorem Paged.eq_of_same [Std.Irrefl r] (h : Paged r limit cursor views pages) {l₀ : List (κ × β)}
    (hl₀ : Ascending r l₀) (hviews : ∀ l ∈ views, l = l₀) : pages.flatten = after r cursor l₀ := by
  induction h with
  | @last cursor l _ =>
      obtain rfl := hviews l List.mem_cons_self
      exact List.flatten_singleton
  | @more cursor l e views pages _ he _ ih =>
      obtain rfl := hviews l List.mem_cons_self
      rw [List.flatten_cons, ih fun l' hl' => hviews l' (List.mem_cons_of_mem _ hl'),
        after_last hl₀ he, List.take_append_drop]

end

end Paging
