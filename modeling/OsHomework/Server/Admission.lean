import OsHomework.Server.Sections
import OsHomework.Lib.Collect

/-!
# Admission control

The server never holds more than `max_tasks` requests, `busy_threads` has exactly
one entry for each worker between its `insertReq` and its `removeReq`, and no
`insertReq` ever finds its queue full.

`busy_threads` is searched by descriptor number after `close`, so a number can
stand in it twice, and a finishing worker may take out the entry of another one.
The invariant does not track whose entry is whose: it says that the numbers in
`busy_threads` are, up to order, the numbers the workers have put there. A
finishing worker's own number is among them, so its search succeeds, and which of
two equal entries goes makes no difference to the count.
-/

namespace OsHomework
namespace Server

variable {cfg : Config}

/-- The numbers the workers have put into `busy_threads`. -/
def busyFds (workers : Fin cfg.maxThreads → WorkerPc) : List Int :=
  collect (WorkerPc.busyFd ∘ workers)

/-- The counting invariant. -/
structure AdmissionInv (s : State cfg) : Prop where
  pending_limit : s.pendingReqs.maxSize = cfg.maxTasks
  busy_limit : s.busyThreads.maxSize = cfg.maxThreads
  busy_perm : s.busyThreads.fds.Perm (busyFds s.workers)
  total_le : s.pendingReqs.getQsize + s.busyThreads.getQsize ≤ cfg.maxTasks
  never_full : Event.queueFull ∉ s.log

variable {s : State cfg}

/-! ### The collection of busy numbers -/

theorem busyFds_setWorker_same {w : Fin cfg.maxThreads} {pc : WorkerPc}
    (h : pc.busyFd = (s.workers w).busyFd) :
    busyFds (s.setWorker w pc).workers = busyFds s.workers := by
  unfold busyFds State.setWorker
  rw [Function.comp_update, h]
  exact congrArg collect (Function.update_eq_self w _)

theorem busyFds_signalWorkers (wake : Fin cfg.maxThreads → Bool) (s : State cfg) :
    busyFds (s.signalWorkers wake).workers = busyFds s.workers := by
  unfold busyFds State.signalWorkers
  congr 1
  funext w
  simp only [Function.comp_apply]
  split
  · next h =>
    rw [WorkerPc.asleep_iff.mp (Bool.and_eq_true_iff.mp h).1]
    rfl
  · rfl

/-- The number of entries is the number of workers that have one. -/
theorem AdmissionInv.busy_card (h : AdmissionInv s) :
    s.busyThreads.getQsize =
      (Finset.univ.filter (fun w => (s.workers w).busyFd.isSome)).card := by
  rw [← ReqQ.length_fds, h.busy_perm.length_eq]
  exact length_collect _

theorem AdmissionInv.busy_le (h : AdmissionInv s) : s.busyThreads.getQsize ≤ cfg.maxThreads := by
  rw [h.busy_card]
  exact (Finset.card_le_univ _).trans (Fintype.card_fin _).le

/-- A worker that has no entry leaves room for one. -/
theorem AdmissionInv.busy_lt (h : AdmissionInv s) {w : Fin cfg.maxThreads}
    (hw : (s.workers w).busyFd = none) : s.busyThreads.getQsize < cfg.maxThreads := by
  rw [h.busy_card]
  calc (Finset.univ.filter (fun w => (s.workers w).busyFd.isSome)).card
      < (Finset.univ : Finset (Fin cfg.maxThreads)).card := by
        refine Finset.card_lt_card (Finset.filter_ssubset.mpr ⟨w, Finset.mem_univ w, ?_⟩)
        simp [hw]
    _ = cfg.maxThreads := by rw [Finset.card_univ, Fintype.card_fin]

/-- The caller of `insertReq` has checked the sum of both sizes, so the queue itself has room. -/
theorem AdmissionInv.pending_room (h : AdmissionInv s)
    (hroom : s.pendingReqs.getQsize + s.busyThreads.getQsize < cfg.maxTasks) :
    s.pendingReqs.getQsize < s.pendingReqs.maxSize := by
  rw [h.pending_limit]
  exact (Nat.le_add_right _ _).trans_lt hroom

/-- A worker that takes a request is not among the busy ones. -/
theorem AdmissionInv.busy_room (h : AdmissionInv s) {w : Fin cfg.maxThreads}
    (hw : (s.workers w).Ready) : s.busyThreads.getQsize < s.busyThreads.maxSize := by
  rw [h.busy_limit]
  exact h.busy_lt hw.busyFd

/-- `insertReq` does not report a full queue. -/
theorem AdmissionInv.log_enqueue (h : AdmissionInv s) (wake : Fin cfg.maxThreads → Bool)
    (hroom : s.pendingReqs.getQsize + s.busyThreads.getQsize < cfg.maxTasks) (fd : Int)
    (t : Timeval) : (s.enqueue wake fd t).log = s.log := by
  change s.log ++ (if s.pendingReqs.isQfull then [Event.queueFull] else []) = s.log
  rw [ReqQ.isQfull_of_room (h.pending_room hroom), if_neg Bool.false_ne_true, List.append_nil]

/-- The new request is the last in its queue. -/
theorem AdmissionInv.pending_enqueue (h : AdmissionInv s) (wake : Fin cfg.maxThreads → Bool)
    (hroom : s.pendingReqs.getQsize + s.busyThreads.getQsize < cfg.maxTasks) (fd : Int)
    (t : Timeval) :
    (s.enqueue wake fd t).pendingReqs
      = { s.pendingReqs with reqs := s.pendingReqs.reqs ++ [⟨t, fd⟩] } :=
  ReqQ.insertReq_of_room (h.pending_room hroom) fd t

/-! ### Preservation -/

theorem AdmissionInv.initial : AdmissionInv (State.initial cfg) where
  pending_limit := rfl
  busy_limit := rfl
  busy_perm := by
    have h : busyFds (State.initial cfg).workers = [] := by
      apply List.eq_nil_iff_forall_not_mem.mpr
      intro fd hfd
      obtain ⟨w, hw⟩ := mem_collect.mp hfd
      exact absurd hw (by simp [State.initial, WorkerPc.busyFd])
    rw [h]
    exact List.Perm.nil
  total_le := Nat.zero_le _
  never_full := List.not_mem_nil

/-- The moves that touch neither queue nor the workers' entries. -/
theorem AdmissionInv.frame (h : AdmissionInv s) {t : State cfg}
    (hp : t.pendingReqs = s.pendingReqs) (hb : t.busyThreads = s.busyThreads)
    (hw : busyFds t.workers = busyFds s.workers)
    (hl : Event.queueFull ∈ t.log → Event.queueFull ∈ s.log) : AdmissionInv t where
  pending_limit := by rw [hp]; exact h.pending_limit
  busy_limit := by rw [hb]; exact h.busy_limit
  busy_perm := by rw [hb, hw]; exact h.busy_perm
  total_le := by rw [hp, hb]; exact h.total_le
  never_full hf := h.never_full (hl hf)

theorem AdmissionInv.dropPending (h : AdmissionInv s) {i : ℕ} {r : Req}
    (hr : s.pendingReqs.reqs[i]? = some r) : AdmissionInv (s.dropPending i) where
  pending_limit := by
    rw [State.dropPending_eq hr]
    exact h.pending_limit
  busy_limit := h.busy_limit
  busy_perm := h.busy_perm
  total_le := by
    have h1 := State.getQsize_dropPending hr
    have h2 := h.total_le
    rw [State.dropPending_busyThreads]
    omega
  never_full := by
    change Event.queueFull ∉ s.log ++ [_]
    simpa using h.never_full

theorem AdmissionInv.enqueue (h : AdmissionInv s) (fd : Int) (t : Timeval)
    (wake : Fin cfg.maxThreads → Bool)
    (hroom : s.pendingReqs.getQsize + s.busyThreads.getQsize < cfg.maxTasks) :
    AdmissionInv (s.enqueue wake fd t) := by
  have hins := h.pending_enqueue wake hroom fd t
  constructor
  · rw [hins]
    exact h.pending_limit
  · exact h.busy_limit
  · -- a signal makes no worker busy
    change s.busyThreads.fds.Perm (busyFds (State.signalWorkers wake _).workers)
    rw [busyFds_signalWorkers]
    exact h.busy_perm
  · -- one more entry, within the limit that was checked
    rw [hins]
    change (s.pendingReqs.reqs ++ [_]).length + s.busyThreads.getQsize ≤ _
    rw [List.length_append, List.length_singleton]
    exact Nat.succ_add _ _ ▸ hroom
  · rw [h.log_enqueue wake hroom]
    exact h.never_full

/-- Taking a request moves it from one queue to the other. -/
theorem AdmissionInv.take (h : AdmissionInv s) {w : Fin cfg.maxThreads} (tt1 : Timeval) {r : Req}
    {rs : List Req} (hw : (s.workers w).Ready) (hq : s.pendingReqs.reqs = r :: rs) :
    AdmissionInv (s.takeSection w tt1) := by
  have hlt := h.busy_room hw
  have hins := ReqQ.insertReq_of_room hlt r.data tt1
  rw [State.takeSection_cons hq]
  constructor
  · exact h.pending_limit
  · change (s.busyThreads.insertReq r.data tt1).maxSize = _
    rw [hins]
    exact h.busy_limit
  · -- the entry and the worker that holds it are both new
    change (s.busyThreads.insertReq r.data tt1).fds.Perm
      (collect (WorkerPc.busyFd ∘ Function.update s.workers w _))
    rw [hins, Function.comp_update]
    change ((s.busyThreads.reqs ++ [_]).map Req.data).Perm _
    rw [List.map_append]
    apply (List.perm_append_singleton _ _).trans
    exact (h.busy_perm.cons r.data).trans (collect_update_some hw.busyFd r.data).symm
  · -- one less in the first queue, one more in the second
    have hle := h.total_le
    change rs.length + (s.busyThreads.insertReq r.data tt1).getQsize ≤ _
    rw [hins]
    change rs.length + (s.busyThreads.reqs ++ [_]).length ≤ _
    unfold ReqQ.getQsize at hle
    rw [hq, List.length_cons] at hle
    rw [List.length_append, List.length_singleton]
    omega
  · change Event.queueFull ∉ s.log ++ [_] ++
      (if s.busyThreads.isQfull then [Event.queueFull] else [])
    rw [ReqQ.isQfull_of_room hlt]
    simpa using h.never_full

/-- The finishing worker's number is found, and one entry with that number goes. -/
theorem AdmissionInv.finish (h : AdmissionInv s) {w : Fin cfg.maxThreads} {fd : Int}
    (hw : s.workers w = .closed fd) : AdmissionInv (s.finishSection w fd) := by
  have hbusy : (WorkerPc.busyFd ∘ s.workers) w = some fd := by
    rw [Function.comp_apply, hw]
    rfl
  -- the busy queue is a permutation of what the workers hold
  have hmem : fd ∈ s.busyThreads.fds :=
    h.busy_perm.mem_iff.mpr (mem_collect.mpr ⟨w, hbusy⟩)
  obtain ⟨i, r, hfind, hget, hdata⟩ := ReqQ.findFileId_of_mem hmem
  have hi : i < s.busyThreads.reqs.length := (List.getElem?_eq_some_iff.mp hget).1
  have hrem : (s.busyThreads.removeReq (s.busyThreads.findFileId fd)).2 =
      { s.busyThreads with reqs := s.busyThreads.reqs.eraseIdx i } := by
    rw [hfind, ReqQ.removeReq_of_lt hget]
  -- the entry that goes has the number of this worker, whichever copy it is
  have hperm : s.busyThreads.fds.Perm
      (fd :: (s.busyThreads.reqs.eraseIdx i).map Req.data) := by
    have hsplit := (List.getElem_cons_eraseIdx_perm hi).symm.map Req.data
    rwa [List.map_cons, (List.getElem?_eq_some_iff.mp hget).2, hdata] at hsplit
  constructor
  · exact h.pending_limit
  · change ((s.busyThreads.removeReq (s.busyThreads.findFileId fd)).2).maxSize = _
    rw [hrem]
    exact h.busy_limit
  · change ((s.busyThreads.removeReq (s.busyThreads.findFileId fd)).2).fds.Perm
      (collect (WorkerPc.busyFd ∘ Function.update s.workers w .idle))
    rw [hrem, Function.comp_update]
    apply List.Perm.cons_inv (a := fd)
    exact hperm.symm.trans (h.busy_perm.trans (collect_update_none hbusy))
  · have hle := h.total_le
    change s.pendingReqs.getQsize +
      ((s.busyThreads.removeReq (s.busyThreads.findFileId fd)).2).getQsize ≤ _
    rw [hrem]
    change _ + (s.busyThreads.reqs.eraseIdx i).length ≤ _
    have hsize : s.busyThreads.getQsize = s.busyThreads.reqs.length := rfl
    rw [List.length_eraseIdx_of_lt hi]
    omega
  · exact h.never_full

theorem admission_stable : Stable (AdmissionInv : State cfg → Prop) where
  bounded _ h := h.total_le
  accept s fd h _ _ := h.frame rfl rfl rfl (by simp [State.acceptConn])
  record s fd t h _ := h.frame rfl rfl rfl (by simp [State.recordArrival])
  dropPending s fd t i r h _ hr := h.dropPending hr
  dropNew s fd t h _ := h.frame rfl rfl rfl (by simp [State.dropNew, State.closeFd])
  enqueue s fd t wake h _ hroom _ := h.enqueue fd t wake hroom
  blockWait s fd t h _ _ := h.frame rfl rfl rfl id
  bfWait s fd t h _ _ _ := h.frame rfl rfl rfl id
  signalMain s h := h.frame rfl rfl rfl id
  sleep s w h hw _ := h.frame rfl rfl (busyFds_setWorker_same hw.busyFd.symm) id
  wake s w h hw := h.frame rfl rfl (busyFds_setWorker_same (by rw [hw]; rfl)) id
  take s w tt1 r rs h hw hq := h.take tt1 hw hq
  handle s w fd arrival h hw :=
    h.frame rfl rfl (busyFds_setWorker_same (s := { s with log := _ }) (by rw [hw]; rfl))
      (by simp [State.handleReq, State.setWorker])
  close s w fd h hw :=
    h.frame rfl rfl (busyFds_setWorker_same (s := s.closeFd fd)
      (by change _ = (s.workers w).busyFd; rw [hw]; rfl))
      (by simp [State.closeReq, State.setWorker, State.closeFd])
  finish s w fd h hw := h.finish hw

theorem AdmissionInv.of_reachable (h : (server cfg).Reachable s) : AdmissionInv s :=
  admission_stable.reachable AdmissionInv.initial h

/-- **Admission control.** In every reachable state, for every policy, the two
queues together hold at most `maxTasks` requests, `busyThreads` holds at most
`maxThreads`, one for each worker between its `insertReq` and its `removeReq`,
and no `insertReq` has ever taken its silent return. -/
theorem admission_control (h : (server cfg).Reachable s) :
    s.pendingReqs.getQsize + s.busyThreads.getQsize ≤ cfg.maxTasks ∧
    s.busyThreads.getQsize ≤ cfg.maxThreads ∧
    s.busyThreads.getQsize =
      (Finset.univ.filter (fun w => (s.workers w).busyFd.isSome)).card ∧
    Event.queueFull ∉ s.log := by
  have hI := AdmissionInv.of_reachable h
  exact ⟨hI.total_le, hI.busy_le, hI.busy_card, hI.never_full⟩

theorem admission_control_sample :
    sampleState.busyThreads.getQsize = 1 ∧
    sampleState.pendingReqs.getQsize + sampleState.busyThreads.getQsize ≤ oneWorker.maxTasks ∧
    Event.queueFull ∉ sampleState.log :=
  ⟨rfl, (admission_control sampleState_reachable).1,
    (admission_control sampleState_reachable).2.2.2⟩

end Server
end OsHomework
