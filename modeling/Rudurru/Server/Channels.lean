import Rudurru.Server.HandoffSound

/-!
# Rudurru.Server.Channels

Properties of event channels. A channel belongs to a create while a flush serves it and to a
registered watcher from then on, and only the two phases and live notification send on it. What
they keep holds of all channels after a step (`Channels.step`).

The properties are two, `P` of a channel while its create is served and `Q` of it afterwards,
because some are about the registration as well. The phases are the caller's business: what they
keep depends on the file, and the caller knows which condition it has on it.
-/

namespace Rudurru

/-- The creates that a flush serves and has not registered. -/
def FlushStage.serving : FlushStage → List WatchContext
  | .drained _ | .replying _ => []
  | .admitting _ _ active | .opening active | .scanning _ _ active => active
  | .catchingUp st => st.active

section

variable [Crates]

/-- `P` holds of the creates being served, `Q` of the registered watchers. -/
structure Channels (P : WatchContext → Prop) (Q : WatchRegistration → Prop) (h : Handoff) :
    Prop where
  faults : h.sys.store.wal.faults = []
  watchers : ∀ reg ∈ h.sys.store.watchers, Q reg
  flush : ∀ f ∈ h.flush, ∀ ctx ∈ f.stage.serving, P ctx

variable {P : WatchContext → Prop} {Q : WatchRegistration → Prop}

omit [Crates] in
theorem channels_start {sys : System} (hs : sys.store.wal.faults = [])
    (hw : sys.store.watchers = []) : Channels P Q (.start sys) where
  faults := hs
  watchers := by simp [Handoff.start, hw]
  flush := by simp [Handoff.start]

omit [Crates] in
theorem serving_swap (f : FlushRun) (contents : Bytes) :
    (f.swap contents).stage.serving = f.stage.serving := by
  unfold FlushRun.swap
  cases f.stage with
  | scanning opened orphan active => cases orphan <;> rfl
  | _ => rfl

/-- **One step keeps a property of channels** that an empty channel has, that notification and
registration keep, and that the phases keep in this step. -/
theorem Channels.step {h h' : Handoff} {ev : HandoffEvent} (hc : Channels P Q h)
    (hempty : ∀ ctx, ctx.eventTx = [] → P ctx)
    (hnotify : ∀ ws reg, Q reg → Q (notifyWrites ws reg))
    (hregister : ∀ ctx, P ctx → Q ctx.registration)
    (hphase1 : ∀ n f opened orphan active, ev = .phase1 n → h.flush = some f →
      f.stage = .scanning opened orphan active → (∀ ctx ∈ active, P ctx) →
        ∀ ctx ∈ (flushPhase1 ((orphan.getD h.sys.store.wal.contents).take n) f.checkpointRev
          active).active, P ctx)
    (hphase2 : ∀ f st, ev = .phase2 → h.flush = some f → f.stage = .catchingUp st →
      (∀ ctx ∈ st.active, P ctx) →
        ∀ ctx ∈ (flushPhase2 h.sys.store.wal.contents f.checkpointRev f.checkpointOffset
          st).active, P ctx)
    (hstep : h.step ev = some h') : Channels P Q h' := by
  have hserving : ∀ f, h.flush = some f → ∀ ctx ∈ f.stage.serving, P ctx :=
    fun f hf => hc.flush f hf
  cases Handoff.moves_of_step hc.faults hstep with
  | @request q ws s' hq hpub =>
      refine ⟨hpub.faults, ?_, hc.flush⟩
      intro reg hreg
      dsimp only at hreg
      rw [hpub.watchers] at hreg
      obtain ⟨reg₀, hreg₀, rfl⟩ := List.mem_map.mp hreg
      exact hnotify ws reg₀ (hc.watchers reg₀ hreg₀)
  | cancelWatch =>
      refine { hc with watchers := ?_ }
      intro reg hreg
      exact hc.watchers reg (List.mem_filter.mp hreg).1
  | compactA | compactB | compactFails | create => exact { hc with }
  | compactC =>
      refine { hc with flush := ?_ }
      intro f' hf'
      obtain ⟨f, hf, rfl⟩ := Option.map_eq_some_iff.mp hf'
      rw [serving_swap]
      exact hc.flush f hf
  | restart hopen =>
      obtain ⟨_, _, _, _, _, rfl⟩ := openStore_eq_ok hopen
      exact channels_start rfl rfl
  | checkpoint | compactRev =>
      refine { hc with flush := ?_ }
      intro f' hf' ctx hctx
      cases hf'
      cases hctx
  | refuse hf hstage | openWal hf hstage =>
      refine { hc with flush := ?_ }
      intro f' hf'
      cases hf'
      have hactive := hserving _ hf
      rw [hstage] at hactive
      exact hactive
  | admission hf hstage hctx =>
      refine { hc with flush := ?_ }
      intro f' hf'
      cases hf'
      have hactive := hserving _ hf
      rw [hstage] at hactive
      intro ctx hmem
      rcases List.mem_append.mp hmem with hmem | hmem
      · exact hactive ctx hmem
      · obtain rfl := List.mem_singleton.mp hmem
        -- an admitted watcher starts with an empty channel
        exact hempty _ (eventTx_of_admitCreate hctx).1
  | screen hf hstage =>
      refine { hc with flush := ?_ }
      intro f' hf'
      have hactive := hserving _ hf
      rw [hstage] at hactive
      dsimp only at hf'
      split at hf'
      · cases hf'
      · cases hf'
        intro ctx hmem
        exact hactive ctx (mem_of_mem_screenDuplicates hmem)
  | phase1 hf hstage =>
      refine { hc with flush := ?_ }
      intro f' hf'
      cases hf'
      have hactive := hserving _ hf
      rw [hstage] at hactive
      exact hphase1 _ _ _ _ _ rfl hf hstage hactive
  | @phase2 f st hf hstage =>
      have hactive := hserving _ hf
      rw [hstage] at hactive
      have hnew := hphase2 f st rfl hf hstage hactive
      generalize (flushPhase2 h.sys.store.wal.contents f.checkpointRev f.checkpointOffset
        st).active = active at hnew ⊢
      refine ⟨?_, ?_, ?_⟩
      · rw [(quiet_registerAll active h.sys.store).wal]
        exact hc.faults
      · intro reg hreg
        dsimp only at hreg
        rw [watchers_registerAll] at hreg
        rcases List.mem_append.mp hreg with hreg | hreg
        · exact hc.watchers reg hreg
        · -- phase 2 registers the batch with the channels it has just filled
          obtain ⟨ctx, hctx, rfl⟩ := List.mem_map.mp hreg
          exact hregister ctx (hnew ctx hctx)
      · intro f' hf' ctx hctx
        cases hf'
        cases hctx
  | reply =>
      refine { hc with flush := ?_ }
      intro f' hf' ctx hctx
      dsimp only at hf'
      split at hf'
      · cases hf'
      · cases hf'
        cases hctx

end

end Rudurru
