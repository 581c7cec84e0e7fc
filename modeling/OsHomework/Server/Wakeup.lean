import OsHomework.Server.Admission

/-!
# No lost wakeup

Two condition variables, one signal for each insertion and one for each finished
request. The invariant says what a sleeping thread may rely on: a worker sleeps on
`no_waiting_reqs` while another is up, unless nothing is pending; the main thread
sleeps on `no_empty_threads` unsignalled only while the condition of its loop
holds. Workers move requests between the queues without changing their sum, and
the one move that lowers it, `finishSection`, signals the main thread.
-/

namespace OsHomework
namespace Server

variable {cfg : Config} {s : State cfg}

/-- The wakeup invariant, on top of the counting one. -/
structure WakeInv (s : State cfg) : Prop extends AdmissionInv s where
  pending_awake : s.pendingReqs.reqs ≠ [] → ∃ w, (s.workers w).asleep = false
  block_full : ∀ fd t, s.main = .blockWait fd t false →
    cfg.maxTasks ≤ s.pendingReqs.getQsize + s.busyThreads.getQsize
  bf_full : ∀ fd t, s.main = .bfWait fd t false →
    cfg.maxTasks ≤ s.pendingReqs.getQsize + s.busyThreads.getQsize ∧ s.busyThreads.reqs ≠ []

/-- A state whose main thread is not asleep has nothing to show for it. -/
theorem WakeInv.of_main_up (hA : AdmissionInv s) (hm : s.main.asleep = false)
    (hp : s.pendingReqs.reqs ≠ [] → ∃ w, (s.workers w).asleep = false) : WakeInv s where
  toAdmissionInv := hA
  pending_awake := hp
  block_full fd t h := absurd hm (by rw [h]; simp [MainPc.asleep])
  bf_full fd t h := absurd hm (by rw [h]; simp [MainPc.asleep])

/-- A move of worker `w` that leaves it up and takes nothing from the sum. -/
theorem WakeInv.of_worker_up (h : WakeInv s) {t : State cfg} (hA : AdmissionInv t)
    {w : Fin cfg.maxThreads} (hw : (t.workers w).asleep = false) (hm : t.main = s.main)
    (hsum : t.pendingReqs.getQsize + t.busyThreads.getQsize =
      s.pendingReqs.getQsize + s.busyThreads.getQsize)
    (hbusy : s.busyThreads.reqs ≠ [] → t.busyThreads.reqs ≠ []) : WakeInv t where
  toAdmissionInv := hA
  pending_awake _ := ⟨w, hw⟩
  block_full fd tm hb := by
    rw [hsum]
    exact h.block_full fd tm (hm ▸ hb)
  bf_full fd tm hb := by
    obtain ⟨h1, h2⟩ := h.bf_full fd tm (hm ▸ hb)
    rw [hsum]
    exact ⟨h1, hbusy h2⟩

/-- One signal suffices: after it some worker is up. -/
theorem exists_awake_signalWorkers {wake : Fin cfg.maxThreads → Bool}
    (hw : ValidWake s.workers wake) :
    ∃ w, ((s.signalWorkers wake).workers w).asleep = false := by
  by_cases hex : ∃ w, (s.workers w).asleep
  · obtain ⟨w, hsleep, hwake⟩ := hw hex
    have hup : (s.signalWorkers wake).workers w = .waiting true := by
      simp [State.signalWorkers, hsleep, hwake]
    exact ⟨w, by rw [hup]; rfl⟩
  · -- nobody sleeps, and there is at least one worker
    have h0 : ¬((s.workers ⟨0, cfg.maxThreads_pos⟩).asleep = true) := fun h => hex ⟨_, h⟩
    refine ⟨⟨0, cfg.maxThreads_pos⟩, ?_⟩
    simp [State.signalWorkers, h0]

theorem MainPc.asleep_cases {pc : MainPc} (h : pc.asleep = true) :
    (∃ fd t, pc = .blockWait fd t false) ∨ ∃ fd t, pc = .bfWait fd t false := by
  cases pc with
  | blockWait fd t b =>
    cases b with
    | false => exact Or.inl ⟨fd, t, rfl⟩
    | true => cases h
  | bfWait fd t b =>
    cases b with
    | false => exact Or.inr ⟨fd, t, rfl⟩
    | true => cases h
  | _ => cases h

theorem WakeInv.initial : WakeInv (State.initial cfg) :=
  .of_main_up AdmissionInv.initial rfl (fun h => absurd rfl h)

theorem WakeInv.signalMain (h : WakeInv s) : WakeInv s.signalMain := by
  refine .of_main_up (admission_stable.signalMain s h.toAdmissionInv) ?_ h.pending_awake
  unfold State.signalMain
  cases s.main <;> rfl

theorem wake_stable : Stable (WakeInv : State cfg → Prop) where
  bounded _ h := h.total_le
  accept s fd h hm hf :=
    .of_main_up (admission_stable.accept s fd h.toAdmissionInv hm hf) rfl h.pending_awake
  record s fd t h hm :=
    .of_main_up (admission_stable.record s fd t h.toAdmissionInv hm) rfl h.pending_awake
  dropPending s fd t i r h hm hr := by
    have hup : (s.dropPending i).main.asleep = false := by
      rw [State.dropPending_main, hm]
      rfl
    refine .of_main_up (h.toAdmissionInv.dropPending hr) hup ?_
    -- fewer pending requests, the same workers
    intro hne
    apply h.pending_awake
    intro hnil
    rw [hnil] at hr
    exact absurd hr (by simp)
  dropNew s fd t h hm :=
    .of_main_up (admission_stable.dropNew s fd t h.toAdmissionInv hm) rfl h.pending_awake
  -- the signal of `enqueue` goes to a sleeping worker, if there is one
  enqueue s fd t wake h hm hroom hw :=
    .of_main_up (h.toAdmissionInv.enqueue fd t wake hroom) rfl
      (fun _ => exists_awake_signalWorkers hw)
  -- both loops go to sleep only while their condition holds
  blockWait s fd t h hm hfull :=
    { toAdmissionInv := admission_stable.blockWait s fd t h.toAdmissionInv hm hfull
      pending_awake := h.pending_awake
      block_full := fun _ _ _ => hfull
      bf_full := fun _ _ hb => by cases hb }
  bfWait s fd t h hm hfull hbusy :=
    { toAdmissionInv := admission_stable.bfWait s fd t h.toAdmissionInv hm hfull hbusy
      pending_awake := h.pending_awake
      block_full := fun _ _ hb => by cases hb
      bf_full := fun _ _ _ => ⟨hfull, hbusy⟩ }
  signalMain s h := h.signalMain
  -- a worker goes to sleep only on an empty queue
  sleep s w h hw hnil :=
    { toAdmissionInv := admission_stable.sleep s w h.toAdmissionInv hw hnil
      pending_awake := fun hne => absurd hnil hne
      block_full := h.block_full
      bf_full := h.bf_full }
  wake s w h hw :=
    h.of_worker_up (admission_stable.wake s w h.toAdmissionInv hw) (w := w)
      (by simp [State.setWorker, WorkerPc.asleep]) rfl rfl id
  take s w tt1 r rs h hw hq := by
    have hA := h.toAdmissionInv.take tt1 hw hq
    have hroom : s.busyThreads.getQsize < s.busyThreads.maxSize := by
      rw [h.busy_limit]
      exact h.toAdmissionInv.busy_lt hw.busyFd
    rw [State.takeSection_cons hq] at hA ⊢
    refine h.of_worker_up hA (w := w) (by simp [State.setWorker, WorkerPc.asleep]) rfl ?_ ?_
    · -- the request moves from one queue to the other
      change rs.length + (s.busyThreads.insertReq r.data tt1).getQsize = _
      rw [ReqQ.insertReq_of_room hroom]
      simp only [ReqQ.getQsize, hq, List.length_append, List.length_cons, List.length_nil]
      omega
    · -- the request is in `busy_threads` now
      intro _
      change (s.busyThreads.insertReq r.data tt1).reqs ≠ []
      rw [ReqQ.insertReq_of_room hroom]
      simp
  handle s w fd arrival h hw :=
    h.of_worker_up (admission_stable.handle s w fd arrival h.toAdmissionInv hw) (w := w)
      (by simp [State.handleReq, State.setWorker, WorkerPc.asleep]) rfl rfl id
  close s w fd h hw :=
    h.of_worker_up (admission_stable.close s w fd h.toAdmissionInv hw) (w := w)
      (by simp [State.closeReq, State.setWorker, WorkerPc.asleep]) rfl rfl id
  -- the finishing worker is up, and the main thread has been signalled
  finish s w fd h hw := by
    refine .of_main_up (h.toAdmissionInv.finish hw) ?_ (fun _ => ⟨w, ?_⟩)
    · unfold State.finishSection State.signalMain State.setWorker
      cases s.main <;> rfl
    · simp [State.finishSection, State.signalMain, State.setWorker, WorkerPc.asleep]

/-- **No lost wakeup.** In every reachable state some worker is up while requests
are pending, and a main thread asleep unsignalled waits for a condition that
still holds; so the main thread and all workers are never asleep at once. -/
theorem no_lost_wakeup (h : (server cfg).Reachable s) :
    (s.pendingReqs.reqs ≠ [] → ∃ w, (s.workers w).asleep = false) ∧
    (∀ fd t, s.main = .blockWait fd t false →
      s.pendingReqs.getQsize + s.busyThreads.getQsize ≥ cfg.maxTasks) ∧
    (∀ fd t, s.main = .bfWait fd t false →
      s.pendingReqs.getQsize + s.busyThreads.getQsize ≥ cfg.maxTasks ∧
        s.busyThreads.isQempty = false) ∧
    ¬(s.main.asleep = true ∧ ∀ w, (s.workers w).asleep = true) := by
  have hI : WakeInv s := wake_stable.reachable WakeInv.initial h
  refine ⟨hI.pending_awake, hI.block_full, ?_, ?_⟩
  · intro fd t hm
    obtain ⟨h1, h2⟩ := hI.bf_full fd t hm
    exact ⟨h1, Bool.eq_false_iff.mpr fun he => h2 (ReqQ.isQempty_iff.mp he)⟩
  · rintro ⟨hm, hall⟩
    -- with every worker asleep both queues are empty
    have hpend : s.pendingReqs.getQsize = 0 := by
      by_contra hne
      obtain ⟨w, hw⟩ := hI.pending_awake fun hnil => hne (by simp [ReqQ.getQsize, hnil])
      exact absurd (hall w) (by simp [hw])
    have hbusy : s.busyThreads.getQsize = 0 := by
      rw [hI.toAdmissionInv.busy_card, Finset.card_eq_zero, Finset.filter_eq_empty_iff]
      intro w _
      rw [WorkerPc.asleep_iff.mp (hall w)]
      exact Bool.false_ne_true
    -- so neither loop condition can hold
    have hpos := cfg.maxTasks_pos
    obtain ⟨fd, t, hmain⟩ | ⟨fd, t, hmain⟩ := MainPc.asleep_cases hm
    · have := hI.block_full fd t hmain
      omega
    · have := (hI.bf_full fd t hmain).1
      omega

theorem no_lost_wakeup_sample :
    sampleState.main = .blockWait 5 ⟨12, 0⟩ false ∧
    sampleState.pendingReqs.getQsize + sampleState.busyThreads.getQsize ≥ oneWorker.maxTasks :=
  ⟨rfl, (no_lost_wakeup sampleState_reachable).2.1 5 ⟨12, 0⟩ rfl⟩

end Server
end OsHomework
