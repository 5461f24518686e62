import Mathlib.Logic.Relation
import Rudurru.Recovery
import Rudurru.Txn.Panics

/-!
# Rudurru.Txn.Deferred

The historical ranges of a transaction. They are set aside while the transaction holds the write
lock, and answered after it, with other requests in between; each answer is then put in its place
in the response tree. `TxnRuns` is `Store::txn` with what others do in between, and
`txn_answers_each_op` says that the tree it returns is the one that its ops would have built in
place: the recursion that records positions and the one that follows them agree.

The two recursions meet in `OpsRan`: an op has been run up to its deferred ranges, which are listed
with their paths, and whatever answers are later put at these paths make the response that the op
would have given had its ranges been read then. A patch reaches the response at the first index of
its path and leaves the others alone (`patchDeferredRange_middle`), so the answers to different ops
do not get in each other's way, in whatever order they come.
-/

namespace Rudurru

open Prog (exec)

section

variable [Crates]

/-! ### A transaction among others

Between the release of the lock and a deferred range others may do anything, and so between two
deferred ranges.
-/

/-- The answers to deferred ranges, with what others do `between` the lock or the range before and
each of them. -/
inductive AnswersDeferred (between : RangeRequest → StoreState → StoreState → Prop) :
    StoreState → List (List Nat × RangeRequest) → TxnResponse → Except Failure TxnResponse →
      StoreState → Prop
  | nil {s resp} : AnswersDeferred between s [] resp (.ok resp) s
  | answered {s s₁ s' path req deferred resp r out} : between req s s₁ → range s₁ req = .ok r →
      AnswersDeferred between s₁ deferred
        { resp with responses := patchDeferredRange resp.responses path r } out s' →
      AnswersDeferred between s ((path, req) :: deferred) resp out s'
  | fails {s s₁ path req deferred resp e} : between req s s₁ → range s₁ req = .error e →
      AnswersDeferred between s ((path, req) :: deferred) resp (.error e) s₁

/-- `Store::txn`, with what others do once its lock is released. -/
inductive TxnRuns (between : RangeRequest → StoreState → StoreState → Prop) (s : StoreState)
    (req : TxnRequest) : Except Failure TxnResponse → StoreState → Prop
  | rejected {e} : checkTxnDuplicateKeys req = .error e → TxnRuns between s req (.error e) s
  | aborted {e s₁} : checkTxnDuplicateKeys req = .ok () →
      exec (txnLocked req) s = (.error e, s₁) → TxnRuns between s req (.error e) s₁
  | locked {resp deferred s₁ out s'} : checkTxnDuplicateKeys req = .ok () →
      exec (txnLocked req) s = (.ok (resp, deferred), s₁) →
      AnswersDeferred between s₁ deferred resp out s' → TxnRuns between s req out s'

variable {between : RangeRequest → StoreState → StoreState → Prop}

theorem answersDeferred_of_runDeferred (h : ∀ r s, between r s s) (s : StoreState)
    (deferred : List (List Nat × RangeRequest)) (resp : TxnResponse) :
    AnswersDeferred between s deferred resp (exec (runDeferred deferred resp) s).1
      (exec (runDeferred deferred resp) s).2 := by
  induction deferred generalizing resp with
  | nil => exact .nil
  | cons d deferred ih =>
      obtain ⟨path, req⟩ := d
      rw [runDeferred, Prog.exec_bind, exec_read]
      cases hrange : range s req with
      | error e => exact .fails (h req s) hrange
      | ok r => exact .answered (h req s) hrange (ih _)

/-- Nothing in between is `Store::txn` of the model. -/
theorem txnRuns_of_txn (h : ∀ r s, between r s s) (s : StoreState) (req : TxnRequest) :
    TxnRuns between s req (exec (txn req) s).1 (exec (txn req) s).2 := by
  rw [txn, Prog.exec_bind, exec_read]
  cases hcheck : checkTxnDuplicateKeys req with
  | error e => exact .rejected hcheck
  | ok _ =>
      dsimp only
      rw [Prog.exec_bind]
      rcases hlocked : exec (txnLocked req) s with ⟨r, s₁⟩
      cases r with
      | error e => exact .aborted hcheck hlocked
      | ok a => exact .locked hcheck hlocked (answersDeferred_of_runDeferred h s₁ a.2 a.1)

/-! ### Answers in their places

The position of a deferred range is a path of indices into nested responses.
-/

/-- The answer to a deferred range, with its position. -/
structure LateAnswer where
  path : List Nat
  req : RangeRequest
  resp : RangeResponse

/-- The deferred range that is answered. -/
def LateAnswer.slot (a : LateAnswer) : List Nat × RangeRequest := (a.path, a.req)

/-- The position is in a nested tree, at an index of the outer one. -/
def LateAnswer.under (i : Nat) (a : LateAnswer) : LateAnswer := { a with path := i :: a.path }

/-- A response with an answer put at a position below it. -/
def patchOp : ResponseOp → List Nat → RangeResponse → ResponseOp
  | _, [], resp => .range resp
  | .txn header succeeded nested, i :: path, resp =>
      .txn header succeeded (patchDeferredRange nested (i :: path) resp)
  | response, _ :: _, _ => response

/-- Responses with all answers put in their places, one after the other. -/
def fill (responses : List ResponseOp) (answers : List LateAnswer) : List ResponseOp :=
  answers.foldl (fun responses a => patchDeferredRange responses a.path a.resp) responses

/-- The same below one response. -/
def fillOp (response : ResponseOp) (answers : List LateAnswer) : ResponseOp :=
  answers.foldl (fun response a => patchOp response a.path a.resp) response

omit [Crates] in
theorem getElem?_middle (before : List ResponseOp) (response : ResponseOp)
    (after : List ResponseOp) :
    (before ++ response :: after)[before.length]? = some response := by
  rw [List.getElem?_append_right (Nat.le_refl _), Nat.sub_self]
  rfl

omit [Crates] in
theorem set_middle (before : List ResponseOp) (response response' : ResponseOp)
    (after : List ResponseOp) :
    (before ++ response :: after).set before.length response' = before ++ response' :: after := by
  rw [List.set_append_right _ _ (Nat.le_refl _), Nat.sub_self]
  rfl

omit [Crates] in
/-- **A patch reaches the response at its first index** and no other. The rest of the path is
followed inside of it. -/
theorem patchDeferredRange_middle (before : List ResponseOp) (response : ResponseOp)
    (after : List ResponseOp) (path : List Nat) (resp : RangeResponse) :
    patchDeferredRange (before ++ response :: after) (before.length :: path) resp
      = before ++ patchOp response path resp :: after := by
  cases path with
  | nil => rw [patchDeferredRange, set_middle, patchOp]
  | cons i path =>
      rw [patchDeferredRange, getElem?_middle]
      cases response with
      | txn header succeeded nested => exact set_middle ..
      | range | put | deleteRange | none => rfl

omit [Crates] in
theorem fill_middle (before : List ResponseOp) (response : ResponseOp) (after : List ResponseOp)
    (answers : List LateAnswer) :
    fill (before ++ response :: after) (answers.map (LateAnswer.under before.length))
      = before ++ fillOp response answers :: after := by
  induction answers generalizing response with
  | nil => rfl
  | cons a answers ih =>
      rw [List.map_cons, fill, List.foldl_cons]
      exact (congrArg (fun responses => fill responses _)
        (patchDeferredRange_middle before response after a.path a.resp)).trans (ih _)

omit [Crates] in
theorem fillOp_txn (header : ResponseHeader) (succeeded : Bool) {nested : List ResponseOp}
    {answers : List LateAnswer} (h : ∀ a ∈ answers, a.path ≠ []) :
    fillOp (.txn header succeeded nested) answers
      = .txn header succeeded (fill nested answers) := by
  induction answers generalizing nested with
  | nil => rfl
  | cons a answers ih =>
      obtain ⟨path, req, resp⟩ := a
      cases path with
      | nil => exact absurd rfl (h _ List.mem_cons_self)
      | cons i path => exact ih fun b hb => h b (by simp [hb])

/-- What others do before some of the deferred ranges. -/
def Reaches (between : RangeRequest → StoreState → StoreState → Prop) :
    StoreState → StoreState → Prop := Relation.TransGen fun s t => ∃ r, between r s t

/-- What the loop over the deferred ranges does: every one is answered, and the answers are put
in their places. -/
theorem AnswersDeferred.filled {s s' : StoreState}
    {deferred : List (List Nat × RangeRequest)} {resp out : TxnResponse}
    (h : AnswersDeferred between s deferred resp (.ok out) s') :
    ∃ answers : List LateAnswer, answers.map LateAnswer.slot = deferred ∧
      (∀ a ∈ answers, ∃ t, Reaches between s t ∧ range t a.req = .ok a.resp) ∧
      out = { resp with responses := fill resp.responses answers } := by
  generalize hok : (Except.ok out : Except Failure TxnResponse) = result at h
  induction h with
  | nil =>
      cases hok
      exact ⟨[], rfl, by simp, rfl⟩
  | @answered s s₁ s' path req deferred resp r out' hbetween hrange hrest ih =>
      obtain ⟨answers, hslots, hanswers, hout⟩ := ih hok
      refine ⟨⟨path, req, r⟩ :: answers, by rw [List.map_cons, hslots]; rfl, ?_, hout⟩
      intro a ha
      rcases List.mem_cons.mp ha with rfl | ha
      · exact ⟨s₁, .single ⟨req, hbetween⟩, hrange⟩
      · obtain ⟨t, ht, hresp⟩ := hanswers a ha
        exact ⟨t, .head ⟨req, hbetween⟩ ht, hresp⟩
  | fails => cases hok

/-! ### Ops and their responses -/

mutual
/-- An op that was run on a state, its response, and the state it left. A historical range is
answered by `late`. -/
inductive OpAnswered (late : RangeRequest → RangeResponse → Prop) :
    StoreState → RequestOp → ResponseOp → StoreState → Prop
  | late {s r resp} : r.revision > 0 → late r resp →
      OpAnswered late s (.range r) (.range resp) s
  | current {s r resp} : ¬ r.revision > 0 → rangeCurrent s r = .ok resp →
      OpAnswered late s (.range r) (.range resp) s
  | put {s s₁ s' p resp rev} {c c' : TxnCursor} : validatePut p s = .ok () →
      exec c.getRev s = (.ok (rev, c'), s₁) → exec (putAt p rev) s₁ = (.ok resp, s') →
      OpAnswered late s (.put p) (.put resp) s'
  | deleteRange {s s₁ s' d resp rev} {c c' : TxnCursor} : checkKey d.key = .ok () →
      exec c.getRev s = (.ok (rev, c'), s₁) → exec (deleteRangeAt d rev) s₁ = (.ok resp, s') →
      OpAnswered late s (.deleteRange d) (.deleteRange resp) s'
  | txn {s s' compare success failure responses} :
      OpsAnswered late s (if compare.all (evalCompare s) then success else failure) responses s' →
      OpAnswered late s (.txn compare success failure)
        (.txn s'.header (compare.all (evalCompare s)) responses) s'
  | none {s} : OpAnswered late s .none .none s
/-- Ops in order: one response for each of them. -/
inductive OpsAnswered (late : RangeRequest → RangeResponse → Prop) :
    StoreState → List RequestOp → List ResponseOp → StoreState → Prop
  | nil {s} : OpsAnswered late s [] [] s
  | cons {s s₁ s' op ops response responses} : OpAnswered late s op response s₁ →
      OpsAnswered late s₁ ops responses s' →
      OpsAnswered late s (op :: ops) (response :: responses) s'
end

/-- A deferred range one level further down. -/
def under (i : Nat) (d : List Nat × RangeRequest) : List Nat × RangeRequest := (i :: d.1, d.2)

/-- The deferred ranges of a cursor with more of them, at positions below `path`. -/
def TxnCursor.defer (c : TxnCursor) (path : List Nat) (new : List (List Nat × RangeRequest)) :
    List (List Nat × RangeRequest) :=
  c.deferred ++ new.map fun d => (path ++ d.1, d.2)

/-- The answers are to these deferred ranges. -/
def Answers (late : RangeRequest → RangeResponse → Prop) (new : List (List Nat × RangeRequest))
    (answers : List LateAnswer) : Prop :=
  answers.map LateAnswer.slot = new ∧ ∀ a ∈ answers, late a.req a.resp

/-- What is left of an op: the ranges it set aside, whose answers complete its response. -/
def OpRan (s : StoreState) (op : RequestOp) (path : List Nat) (c : TxnCursor)
    (r : ResponseOp × TxnCursor) (s' : StoreState) : Prop :=
  ∃ new, r.2.deferred = c.defer path new ∧ (∀ d ∈ new, d.2.revision > 0) ∧
    ∀ late answers, Answers late new answers → OpAnswered late s op (fillOp r.1 answers) s'

/-- What is left of a list of ops, the first of them at index `i`. -/
def OpsRan (s : StoreState) (ops : List RequestOp) (path : List Nat) (i : Nat) (c : TxnCursor)
    (r : List ResponseOp × TxnCursor) (s' : StoreState) : Prop :=
  ∃ new, r.2.deferred = c.defer path new ∧ (∀ d ∈ new, d.1 ≠ [] ∧ d.2.revision > 0) ∧
    ∀ late answers, Answers late new answers → ∀ before : List ResponseOp, before.length = i →
      ∃ after, fill (before ++ r.1) answers = before ++ after ∧
        OpsAnswered late s ops after s'

omit [Crates] in
theorem defer_nil (c : TxnCursor) (path : List Nat) : c.defer path [] = c.deferred :=
  List.append_nil _

/-- An op with nothing to set aside. -/
theorem opRan_of_answered {s s' : StoreState} {op : RequestOp} {path : List Nat}
    {c c' : TxnCursor} {response : ResponseOp} (hdeferred : c'.deferred = c.deferred)
    (h : ∀ late, OpAnswered late s op response s') : OpRan s op path c (response, c') s' := by
  refine ⟨[], by rw [defer_nil]; exact hdeferred, by simp, ?_⟩
  intro late answers hanswers
  obtain rfl := List.map_eq_nil_iff.mp hanswers.1
  exact h late

omit [Crates] in
theorem deferred_getRev {c c' : TxnCursor} {s s' : StoreState} {rev : UInt64}
    (h : exec c.getRev s = (.ok (rev, c'), s')) : c'.deferred = c.deferred := by
  unfold TxnCursor.getRev at h
  split at h
  · cases h
    rfl
  · cases h
    rfl

omit [Crates] in
theorem Answers.append {late : RangeRequest → RangeResponse → Prop}
    {new new' : List (List Nat × RangeRequest)} {answers : List LateAnswer}
    (h : Answers late (new ++ new') answers) :
    ∃ l l', answers = l ++ l' ∧ Answers late new l ∧ Answers late new' l' := by
  obtain ⟨l, l', rfl, hl, hl'⟩ := List.map_eq_append_iff.mp h.1
  refine ⟨l, l', rfl, ⟨hl, ?_⟩, hl', ?_⟩
  · exact fun a ha => h.2 a (List.mem_append_left _ ha)
  · exact fun a ha => h.2 a (List.mem_append_right _ ha)

omit [Crates] in
theorem Answers.of_under {late : RangeRequest → RangeResponse → Prop} {i : Nat}
    {new : List (List Nat × RangeRequest)} {answers : List LateAnswer}
    (h : Answers late (new.map (under i)) answers) :
    ∃ l, answers = l.map (LateAnswer.under i) ∧ Answers late new l := by
  induction new generalizing answers with
  | nil =>
      obtain rfl := List.map_eq_nil_iff.mp h.1
      exact ⟨[], rfl, rfl, by simp⟩
  | cons d new ih =>
      obtain ⟨a, rest, rfl, hslot, hrest⟩ := List.map_eq_cons_iff.mp h.1
      obtain ⟨l, rfl, hl⟩ := ih ⟨hrest, fun b hb => h.2 b (by simp [hb])⟩
      obtain ⟨path, req, resp⟩ := a
      obtain ⟨path', req'⟩ := d
      cases hslot
      refine ⟨⟨path', req, resp⟩ :: l, rfl, by rw [List.map_cons, hl.1]; rfl, ?_⟩
      intro b hb
      rcases List.mem_cons.mp hb with rfl | hb
      · exact h.2 (LateAnswer.under i ⟨path', req, resp⟩) List.mem_cons_self
      · exact hl.2 b hb

/-- **Ops in order**: what the first sets aside is at its own index. -/
theorem OpRan.cons {s s₁ s' : StoreState} {op : RequestOp} {ops : List RequestOp}
    {path : List Nat} {i : Nat} {c c₁ c' : TxnCursor} {response : ResponseOp}
    {responses : List ResponseOp} (hop : OpRan s op (path ++ [i]) c (response, c₁) s₁)
    (hops : OpsRan s₁ ops path (i + 1) c₁ (responses, c') s') :
    OpsRan s (op :: ops) path i c (response :: responses, c') s' := by
  obtain ⟨new, hdeferred, hrev, hcomplete⟩ := hop
  obtain ⟨new', hdeferred', hnew', hcomplete'⟩ := hops
  dsimp only at hdeferred hdeferred'
  refine ⟨new.map (under i) ++ new', ?_, ?_, ?_⟩
  · rw [hdeferred', TxnCursor.defer, hdeferred]
    simp [TxnCursor.defer, under]
  · intro d hd
    rcases List.mem_append.mp hd with hd | hd
    · obtain ⟨e, he, rfl⟩ := List.mem_map.mp hd
      exact ⟨List.cons_ne_nil _ _, hrev e he⟩
    · exact hnew' d hd
  · intro late answers hanswers before hlen
    obtain ⟨l, l', rfl, hl, hl'⟩ := hanswers.append
    obtain ⟨m, rfl, hm⟩ := hl.of_under
    obtain ⟨after, hafter, hrest⟩ := hcomplete' late l' hl'
      (before ++ [fillOp response m]) (by simp [hlen])
    refine ⟨fillOp response m :: after, ?_, .cons (hcomplete late m hm) hrest⟩
    have hfill : fill (before ++ response :: responses) (m.map (LateAnswer.under i) ++ l')
        = fill (fill (before ++ response :: responses) (m.map (LateAnswer.under i))) l' :=
      List.foldl_append
    rw [hfill, ← hlen, fill_middle]
    simpa using hafter

/-- A nested transaction: what its ops set aside is at positions of its own responses. -/
theorem OpsRan.txn {s s' : StoreState} {compare : List Compare} {success failure : List RequestOp}
    {path : List Nat} {c c' : TxnCursor} {nested : List ResponseOp}
    (h : OpsRan s (if compare.all (evalCompare s) then success else failure) path 0 c (nested, c')
      s') :
    OpRan s (.txn compare success failure) path c
      (.txn s'.header (compare.all (evalCompare s)) nested, c') s' := by
  obtain ⟨new, hdeferred, hnew, hcomplete⟩ := h
  refine ⟨new, hdeferred, fun d hd => (hnew d hd).2, ?_⟩
  intro late answers hanswers
  obtain ⟨after, hafter, hops⟩ := hcomplete late answers hanswers [] rfl
  have hpaths : ∀ a ∈ answers, a.path ≠ [] := by
    intro a ha
    exact (hnew a.slot (hanswers.1 ▸ List.mem_map_of_mem ha)).1
  rw [fillOp_txn _ _ hpaths]
  rw [List.nil_append, List.nil_append] at hafter
  rw [hafter]
  exact .txn hops

mutual
theorem applyTxnOp_ran : ∀ (op : RequestOp) (path : List Nat) (depth : Nat) (c : TxnCursor)
    (s s' : StoreState) (r : ResponseOp × TxnCursor),
      exec (applyTxnOp path depth c op) s = (.ok r, s') → OpRan s op path c r s'
  | .range r, path, depth, c, s, s', res, h => by
      unfold applyTxnOp at h
      split at h
      · next hrev =>
          cases h
          refine ⟨[([], r)], by simp [TxnCursor.defer], by simpa using hrev, ?_⟩
          intro late answers hanswers
          -- the one deferred range of this op is answered later, at its own slot
          obtain ⟨a, rest, rfl, hslot, hrest⟩ := List.map_eq_cons_iff.mp hanswers.1
          obtain rfl := List.map_eq_nil_iff.mp hrest
          obtain ⟨path', req', resp⟩ := a
          cases hslot
          exact .late hrev (hanswers.2 _ List.mem_cons_self)
      · next hrev =>
          obtain ⟨resp, s₁, hread, h⟩ := Prog.exec_bind_eq_ok.mp h
          rw [exec_read] at hread
          cases h
          obtain ⟨hresp, rfl⟩ := Prod.mk.inj hread
          exact opRan_of_answered rfl fun late => .current hrev hresp
  | .put p, path, depth, c, s, s', res, h => by
      unfold applyTxnOp at h
      obtain ⟨_, s₁, hread, h⟩ := Prog.exec_bind_eq_ok.mp h
      rw [exec_read] at hread
      obtain ⟨hvalid, rfl⟩ := Prod.mk.inj hread
      obtain ⟨⟨rev, c'⟩, s₂, hrev, h⟩ := Prog.exec_bind_eq_ok.mp h
      obtain ⟨resp, s₃, hput, h⟩ := Prog.exec_bind_eq_ok.mp h
      cases h
      exact opRan_of_answered (deferred_getRev hrev) fun late => .put hvalid hrev hput
  | .deleteRange d, path, depth, c, s, s', res, h => by
      unfold applyTxnOp at h
      obtain ⟨_, s₁, hread, h⟩ := Prog.exec_bind_eq_ok.mp h
      rw [exec_read] at hread
      obtain ⟨hkey, rfl⟩ := Prod.mk.inj hread
      obtain ⟨⟨rev, c'⟩, s₂, hrev, h⟩ := Prog.exec_bind_eq_ok.mp h
      obtain ⟨resp, s₃, hdelete, h⟩ := Prog.exec_bind_eq_ok.mp h
      cases h
      exact opRan_of_answered (deferred_getRev hrev) fun late => .deleteRange hkey hrev hdelete
  | .txn compare success failure, path, depth, c, s, s', res, h => by
      unfold applyTxnOp at h
      split at h
      · obtain ⟨_, _, hthrow, -⟩ := Prog.exec_bind_eq_ok.mp h
        cases hthrow
      · obtain ⟨s₀, s₁, hget, h⟩ := Prog.exec_bind_eq_ok.mp h
        cases hget
        by_cases hholds : compare.all (evalCompare s) = true
        · rw [if_pos hholds] at h
          obtain ⟨⟨responses, c'⟩, s₂, hops, h⟩ := Prog.exec_bind_eq_ok.mp h
          cases h
          rw [← hholds]
          refine OpsRan.txn ?_
          rw [if_pos hholds]
          exact applyTxnOps_ran success path 0 (depth + 1) c s s' _ hops
        · rw [if_neg hholds] at h
          obtain ⟨⟨responses, c'⟩, s₂, hops, h⟩ := Prog.exec_bind_eq_ok.mp h
          cases h
          rw [← Bool.eq_false_iff.mpr hholds]
          refine OpsRan.txn ?_
          rw [if_neg hholds]
          exact applyTxnOps_ran failure path 0 (depth + 1) c s s' _ hops
  | .none, path, depth, c, s, s', res, h => by
      unfold applyTxnOp at h
      cases h
      exact opRan_of_answered rfl fun late => .none
theorem applyTxnOps_ran : ∀ (ops : List RequestOp) (path : List Nat) (i depth : Nat)
    (c : TxnCursor) (s s' : StoreState) (r : List ResponseOp × TxnCursor),
      exec (applyTxnOps path i depth c ops) s = (.ok r, s') → OpsRan s ops path i c r s'
  | [], path, i, depth, c, s, s', r, h => by
      unfold applyTxnOps at h
      cases h
      refine ⟨[], (defer_nil c path).symm, by simp, ?_⟩
      intro late answers hanswers before _
      obtain rfl := List.map_eq_nil_iff.mp hanswers.1
      exact ⟨[], rfl, .nil⟩
  | op :: ops, path, i, depth, c, s, s', r, h => by
      unfold applyTxnOps at h
      obtain ⟨⟨response, c₁⟩, s₁, hop, h⟩ := Prog.exec_bind_eq_ok.mp h
      obtain ⟨⟨responses, c'⟩, s₂, hops, h⟩ := Prog.exec_bind_eq_ok.mp h
      cases h
      exact (applyTxnOp_ran op _ depth c s s₁ _ hop).cons
        (applyTxnOps_ran ops path (i + 1) depth c₁ s₁ s' _ hops)
end

/-! ### The response tree -/

/-- The locked part of a transaction ran the branch that its compares chose. -/
theorem txnLocked_ran {s s₁ : StoreState} {req : TxnRequest} {resp : TxnResponse}
    {deferred : List (List Nat × RangeRequest)}
    (h : exec (txnLocked req) s = (.ok (resp, deferred), s₁)) :
    resp.header = s₁.header ∧ resp.succeeded = req.compare.all (evalCompare s) ∧
      ∃ c : TxnCursor, c.deferred = deferred ∧
        OpsRan s (if req.compare.all (evalCompare s) then req.success else req.failure) [] 0 {}
          (resp.responses, c) s₁ := by
  obtain ⟨s₀, t, hget, h⟩ := Prog.exec_bind_eq_ok.mp h
  cases hget
  obtain ⟨⟨responses, c⟩, t, hops, h⟩ := Prog.exec_bind_eq_ok.mp h
  cases h
  exact ⟨rfl, rfl, c, rfl, applyTxnOps_ran _ _ _ _ _ _ _ _ hops⟩

omit [Crates] in
theorem defer_empty (new : List (List Nat × RangeRequest)) :
    ({} : TxnCursor).defer [] new = new := by
  simp [TxnCursor.defer]

/-- Only historical ranges are set aside. -/
theorem revision_of_deferred {s s₁ : StoreState} {req : TxnRequest} {resp : TxnResponse}
    {deferred : List (List Nat × RangeRequest)}
    (h : exec (txnLocked req) s = (.ok (resp, deferred), s₁)) :
    ∀ d ∈ deferred, d.2.revision > 0 := by
  obtain ⟨-, -, c, rfl, new, hnew, hrev, -⟩ := txnLocked_ran h
  rw [defer_empty] at hnew
  intro d hd
  exact (hrev d (hnew ▸ hd)).2

/-- **Every op is answered in its own place.** The responses are those that the ops of the branch
taken would have given one after the other, each historical range answered on a state that the
others had reached by then. -/
theorem txn_answers_each_op {s s' : StoreState} {req : TxnRequest} {resp : TxnResponse}
    (h : TxnRuns between s req (.ok resp) s') :
    ∃ s₁, OpsAnswered (fun r a => ∃ t, Reaches between s₁ t ∧ range t r = .ok a) s
        (if req.compare.all (evalCompare s) then req.success else req.failure) resp.responses s₁ ∧
      resp.header = s₁.header ∧ resp.succeeded = req.compare.all (evalCompare s) := by
  cases h with
  | @locked resp₀ deferred s₁ _ _ _ hlocked hdeferred =>
      obtain ⟨answers, hslots, hanswers, rfl⟩ := hdeferred.filled
      obtain ⟨hheader, hsucceeded, c, rfl, new, hnew, -, hcomplete⟩ := txnLocked_ran hlocked
      rw [defer_empty] at hnew
      -- the slots left open under the lock are those of the deferred ranges, in the same order
      obtain ⟨after, hafter, hanswered⟩ := hcomplete
        (fun r a => ∃ t, Reaches between s₁ t ∧ range t r = .ok a) answers
        ⟨hslots.trans hnew, hanswers⟩ [] rfl
      rw [List.nil_append, List.nil_append] at hafter
      refine ⟨s₁, ?_, hheader, hsucceeded⟩
      dsimp only
      rw [hafter]
      exact hanswered

end

/-- An earlier value read twice, once in a nested transaction, around writes of that key. -/
theorem txn_answers_each_op_nested :
    ∃ s s' resp, serve fresh [.put { key := [1], value := [7] }] = some s ∧
      TxnRuns (fun _ => Eq) s
        { success :=
          [.put { key := [1], value := [8] }, .range { key := [1], revision := 1 },
            .txn [] [.none, .range { key := [1], revision := 1 }, .range { key := [1] }] []] }
        (.ok resp) s' ∧
      ∃ s₁, OpsAnswered (fun r a => ∃ t, Reaches (fun _ => Eq) s₁ t ∧ range t r = .ok a) s
        [.put { key := [1], value := [8] }, .range { key := [1], revision := 1 },
          .txn [] [.none, .range { key := [1], revision := 1 }, .range { key := [1] }] []]
        resp.responses s₁ ∧ resp.header = s₁.header ∧ resp.succeeded = true := by
  have hrun : ((serve fresh [.put { key := [1], value := [7] }]).any fun s =>
      (exec (txn
        { success :=
          [.put { key := [1], value := [8] }, .range { key := [1], revision := 1 },
            .txn [] [.none, .range { key := [1], revision := 1 }, .range { key := [1] }] []] })
        s).1.toOption.isSome) = true := by
    decide +kernel
  obtain ⟨s, hs, hsome⟩ := (Option.any_eq_true _ _).mp hrun
  obtain ⟨resp, hresp⟩ := Option.isSome_iff_exists.mp hsome
  have hruns := @txnRuns_of_txn _ (fun _ => Eq) (fun _ _ => rfl) s
    { success :=
      [.put { key := [1], value := [8] }, .range { key := [1], revision := 1 },
        .txn [] [.none, .range { key := [1], revision := 1 }, .range { key := [1] }] []] }
  rw [Prog.ok_of_toOption hresp] at hruns
  exact ⟨s, _, resp, hs, hruns, txn_answers_each_op hruns⟩

end Rudurru
