import OsHomework.Server.Accounting

/-!
# The block-and-flush policy

The assignment asks that with policy `bf` the main thread blocks until the queue
is empty and no thread handles a request. The loop of the source waits while the
server is full *and* some worker is busy, so it ends when either part fails: as
soon as one request has been finished, or at once when the requests that fill
the server have not been taken yet.

`Undisturbed` is the state of affairs in which this makes no difference: a full
server has a busy worker when a connection arrives, and the main thread gets the
mutex back from its wait only before the first of the requests is finished or
after the last. `bf_flushes_iff` says that these are exactly the steps at which a
connection is closed, if at all, with both queues empty.
-/

namespace OsHomework
namespace Server

variable {cfg : Config} {s t : State cfg}

/-- The requests that have been admitted and not finished. -/
def State.load (s : State cfg) : ℕ := s.pendingReqs.getQsize + s.busyThreads.getQsize

/-- The main thread closes the connection it holds. -/
def ClosesHeld (s t : State cfg) : Prop := ∃ fd, s.main.held = some fd ∧ t.openFds fd = none

/-- No request is left. -/
def Flushed (s : State cfg) : Prop := s.pendingReqs.reqs = [] ∧ s.busyThreads.reqs = []

/-- The main thread may take a step in `s`: if it is about to look at the queues for a new
connection, a full server has a busy worker; if it comes back from its wait, either none of the
requests it waits for is finished or all of them are. -/
def Undisturbed (s : State cfg) : Prop :=
  (∀ fd, s.main = .accepted fd → cfg.maxTasks ≤ s.load → s.busyThreads.reqs ≠ []) ∧
    ∀ fd time, s.main = .bfWait fd time true → s.load = 0 ∨ cfg.maxTasks ≤ s.load

/-! ### While the main thread waits -/

/-- While the main thread waits and none of the requests is finished, a worker is busy. -/
structure BfInv (s : State cfg) : Prop extends AdmissionInv s where
  busy : ∀ fd time b, s.main = .bfWait fd time b → cfg.maxTasks ≤ s.load → s.busyThreads.reqs ≠ []

/-- A move after which the main thread is not in that wait. -/
theorem BfInv.of_main (hA : AdmissionInv s) (hm : ∀ fd time b, s.main ≠ .bfWait fd time b) :
    BfInv s where
  toAdmissionInv := hA
  busy fd time b h := absurd h (hm fd time b)

/-- A move that leaves the queues as they are, and the wait, up to its flag. -/
theorem BfInv.frame (h : BfInv s) (hA : AdmissionInv t) (hp : t.pendingReqs = s.pendingReqs)
    (hb : t.busyThreads = s.busyThreads)
    (hm : ∀ fd time b, t.main = .bfWait fd time b → ∃ b', s.main = .bfWait fd time b') :
    BfInv t where
  toAdmissionInv := hA
  busy fd time b hmain := by
    obtain ⟨b', hmain'⟩ := hm fd time b hmain
    unfold State.load
    rw [hp, hb]
    exact h.busy fd time b' hmain'

/-- Taking a request makes a worker busy. -/
theorem BfInv.take (h : BfInv s) {w : Fin cfg.maxThreads} (tt1 : Timeval) {r : Req}
    {rs : List Req} (hw : (s.workers w).Ready) (hq : s.pendingReqs.reqs = r :: rs) :
    BfInv (s.takeSection w tt1) where
  toAdmissionInv := h.toAdmissionInv.take tt1 hw hq
  busy fd time b _ _ := by
    have hroom : s.busyThreads.getQsize < s.busyThreads.maxSize := by
      rw [h.busy_limit]
      exact h.busy_lt hw.busyFd
    rw [State.takeSection_cons hq]
    change (s.busyThreads.insertReq r.data tt1).reqs ≠ []
    rw [ReqQ.insertReq_of_room hroom]
    exact List.append_ne_nil_of_right_ne_nil _ (List.cons_ne_nil _ _)

/-- Finishing one leaves the server with room. -/
theorem BfInv.finish (h : BfInv s) {w : Fin cfg.maxThreads} {fd : Int}
    (hw : s.workers w = .closed fd) : BfInv (s.finishSection w fd) where
  toAdmissionInv := h.toAdmissionInv.finish hw
  busy x time b _ hfull := by
    have hbusy : (WorkerPc.busyFd ∘ s.workers) w = some fd := by
      rw [Function.comp_apply, hw]
      rfl
    have hmem : fd ∈ s.busyThreads.fds :=
      h.busy_perm.mem_iff.mpr (mem_collect.mpr ⟨w, hbusy⟩)
    obtain ⟨i, r, hfind, hget, -⟩ := ReqQ.findFileId_of_mem hmem
    have hi : i < s.busyThreads.reqs.length := (List.getElem?_eq_some_iff.mp hget).1
    have hsize : s.busyThreads.getQsize = s.busyThreads.reqs.length := rfl
    have hle := h.total_le
    change cfg.maxTasks ≤ s.pendingReqs.getQsize +
      ((s.busyThreads.removeReq (s.busyThreads.findFileId fd)).2).getQsize at hfull
    rw [hfind, ReqQ.removeReq_of_lt hget] at hfull
    change cfg.maxTasks ≤ s.pendingReqs.getQsize + (s.busyThreads.reqs.eraseIdx i).length at hfull
    rw [List.length_eraseIdx_of_lt hi] at hfull
    omega

theorem bf_stable : Stable (BfInv : State cfg → Prop) where
  bounded _ h := h.total_le
  accept s fd h hm hf :=
    .of_main (admission_stable.accept s fd h.toAdmissionInv hm hf) fun _ _ _ h => by cases h
  record s fd t h hm :=
    .of_main (admission_stable.record s fd t h.toAdmissionInv hm) fun _ _ _ h => by cases h
  dropPending s fd t i r h hm hr := by
    refine .of_main (h.toAdmissionInv.dropPending hr) fun x time b hmain => ?_
    rw [State.dropPending_main, hm] at hmain
    cases hmain
  dropNew s fd t h hm :=
    .of_main (admission_stable.dropNew s fd t h.toAdmissionInv hm) fun _ _ _ h => by cases h
  enqueue s fd t wake h hm hroom hw :=
    .of_main (h.toAdmissionInv.enqueue fd t wake hroom) fun _ _ _ h => by cases h
  blockWait s fd t h hm hfull :=
    .of_main (admission_stable.blockWait s fd t h.toAdmissionInv hm hfull) fun _ _ _ h => by
      cases h
  -- the loop waits only with a busy worker
  bfWait s fd t h hm hfull hbusy :=
    { toAdmissionInv := admission_stable.bfWait s fd t h.toAdmissionInv hm hfull hbusy
      busy := fun _ _ _ _ _ => hbusy }
  signalMain s h := by
    have hA := admission_stable.signalMain s h.toAdmissionInv
    apply h.frame hA rfl rfl
    intro fd time b hmain
    unfold State.signalMain at hmain
    cases hs : s.main with
    | bfWait fd' time' b' =>
      rw [hs] at hmain
      cases hmain
      exact ⟨b', rfl⟩
    | _ =>
      rw [hs] at hmain
      cases hmain
  sleep s w h hw hnil :=
    h.frame (admission_stable.sleep s w h.toAdmissionInv hw hnil) rfl rfl fun _ _ b hm => ⟨b, hm⟩
  wake s w h hw :=
    h.frame (admission_stable.wake s w h.toAdmissionInv hw) rfl rfl fun _ _ b hm => ⟨b, hm⟩
  take s w tt1 r rs h hw hq := h.take tt1 hw hq
  handle s w fd arrival h hw :=
    h.frame (admission_stable.handle s w fd arrival h.toAdmissionInv hw) rfl rfl
      fun _ _ b hm => ⟨b, hm⟩
  close s w fd h hw :=
    h.frame (admission_stable.close s w fd h.toAdmissionInv hw) rfl rfl fun _ _ b hm => ⟨b, hm⟩
  finish s w fd h hw := h.finish hw

theorem BfInv.initial : BfInv (State.initial cfg) :=
  .of_main AdmissionInv.initial fun _ _ _ h => by cases h

theorem BfInv.of_reachable (h : (server cfg).Reachable s) : BfInv s :=
  bf_stable.reachable BfInv.initial h

/-! ### The steps of the main thread -/

theorem flushed_iff : Flushed s ↔ s.load = 0 := by
  unfold Flushed State.load ReqQ.getQsize
  rw [Nat.add_eq_zero_iff, List.length_eq_zero_iff, List.length_eq_zero_iff]

/-- A step that closes nothing leaves the connection of the main thread open. -/
theorem not_closesHeld (h : OwnInv s) (hopen : t.openFds = s.openFds) : ¬ ClosesHeld s t := by
  rintro ⟨fd, hheld, hnone⟩
  obtain ⟨c, hc⟩ := h.open_of_held (i := none) hheld
  rw [hopen, hc] at hnone
  cases hnone

/-- The loop waits again while the server is full with a busy worker. -/
theorem openFds_bfLoop_of_full {fd : Int} {time : Timeval} (hfull : cfg.maxTasks ≤ s.load)
    (hbusy : s.busyThreads.reqs ≠ []) : (s.bfLoop fd time).openFds = s.openFds := by
  have hover : s.overloaded = true := decide_eq_true hfull
  have hempty : s.busyThreads.isQempty = false := by
    rw [← Bool.not_eq_true, ReqQ.isQempty_iff]
    exact hbusy
  unfold State.bfLoop
  rw [hover, hempty, if_pos (by decide)]

/-- It is left, and the connection closed, once one of the two fails. -/
theorem openFds_bfLoop_of_not {fd : Int} {time : Timeval}
    (h : s.load < cfg.maxTasks ∨ s.busyThreads.reqs = []) :
    (s.bfLoop fd time).openFds fd = none := by
  -- one of the two tests of the loop fails
  have hcond : (s.overloaded && !s.busyThreads.isQempty) = false := by
    rcases h with h | h
    · have hover : s.overloaded = false := decide_eq_false (not_le.mpr h)
      rw [hover, Bool.false_and]
    · rw [ReqQ.isQempty_iff.mpr h]
      exact Bool.and_false _
  unfold State.bfLoop
  rw [hcond, if_neg (by decide)]
  exact Function.update_self _ _ _

/-- The section of the main thread under policy `bf`. -/
theorem mainSection_bf (hbf : cfg.policy = .bf) (rand : ℕ → ℕ) (wake : Fin cfg.maxThreads → Bool)
    (fd : Int) (time : Timeval) :
    s.mainSection rand wake fd time =
      if cfg.maxTasks ≤ s.load then (s.recordArrival fd time).bfLoop fd time
      else (s.recordArrival fd time).enqueue wake fd time := by
  unfold State.mainSection
  dsimp only
  simp only [hbf]
  by_cases hfull : cfg.maxTasks ≤ s.load
  · rw [if_pos hfull, if_pos (show (s.recordArrival fd time).overloaded = true from
      decide_eq_true hfull)]
  · have hover : ¬ (s.recordArrival fd time).overloaded = true := by
      change ¬ decide (cfg.maxTasks ≤ s.load) = true
      simpa using hfull
    rw [if_neg hfull, if_neg hover]

/-- Where the main thread neither looks at the queues nor comes back from its wait, nothing can
disturb it. -/
theorem undisturbed_of_main (hnew : ∀ fd, s.main ≠ .accepted fd)
    (hback : ∀ fd time, s.main ≠ .bfWait fd time true) : Undisturbed s :=
  ⟨fun fd hm => absurd hm (hnew fd), fun fd time hm => absurd hm (hback fd time)⟩

theorem undisturbed_accepted_iff {fd : Int} (hm : s.main = .accepted fd) :
    Undisturbed s ↔ (cfg.maxTasks ≤ s.load → s.busyThreads.reqs ≠ []) := by
  refine ⟨fun hu => hu.1 fd hm, fun hu => ⟨fun _ _ => hu, fun x time hx => ?_⟩⟩
  rw [hm] at hx
  cases hx

theorem undisturbed_bfWait_iff {fd : Int} {time : Timeval} (hm : s.main = .bfWait fd time true) :
    Undisturbed s ↔ (s.load = 0 ∨ cfg.maxTasks ≤ s.load) := by
  refine ⟨fun hu => hu.2 fd time hm, fun hu => ⟨fun x hx => ?_, fun _ _ _ => hu⟩⟩
  rw [hm] at hx
  cases hx

/-- The main thread looks at the queues for a new connection. -/
theorem flushed_mainSection_iff (hbf : cfg.policy = .bf) (hown : OwnInv s) {fd : Int}
    (hm : s.main = .accepted fd) (rand : ℕ → ℕ) (wake : Fin cfg.maxThreads → Bool)
    (time : Timeval) :
    (ClosesHeld s (s.mainSection rand wake fd time) → Flushed s) ↔ Undisturbed s := by
  have hpos := cfg.maxTasks_pos
  rw [undisturbed_accepted_iff hm, mainSection_bf hbf]
  by_cases hfull : cfg.maxTasks ≤ s.load
  · rw [if_pos hfull]
    by_cases hbusy : s.busyThreads.reqs = []
    · -- nobody is busy: the connection is closed with the requests still pending
      refine iff_of_false (fun hflush => ?_) fun hu => hu hfull hbusy
      have hclosed : ((s.recordArrival fd time).bfLoop fd time).openFds fd = none :=
        openFds_bfLoop_of_not (Or.inr hbusy)
      have hzero := flushed_iff.mp (hflush ⟨fd, by rw [hm]; rfl, hclosed⟩)
      omega
    · -- somebody is: the main thread goes to sleep with its connection
      refine iff_of_true (fun hc => ?_) fun _ => hbusy
      have hopen : ((s.recordArrival fd time).bfLoop fd time).openFds = s.openFds :=
        openFds_bfLoop_of_full (s := s.recordArrival fd time) hfull hbusy
      exact absurd hc (not_closesHeld hown hopen)
  · rw [if_neg hfull]
    exact iff_of_true (fun hc => absurd hc (not_closesHeld hown rfl)) fun hle => absurd hle hfull

/-- The main thread comes back from its wait. -/
theorem flushed_bfLoop_iff (h : (server cfg).Reachable s) {fd : Int} {time : Timeval}
    (hm : s.main = .bfWait fd time true) :
    (ClosesHeld s (s.bfLoop fd time) → Flushed s) ↔ Undisturbed s := by
  rw [undisturbed_bfWait_iff hm]
  by_cases hfull : cfg.maxTasks ≤ s.load
  · -- none of the requests is finished, and a worker is still busy
    have hbusy := (BfInv.of_reachable h).busy fd time true hm hfull
    have hopen : (s.bfLoop fd time).openFds = s.openFds := openFds_bfLoop_of_full hfull hbusy
    refine iff_of_true (fun hc => ?_) (Or.inr hfull)
    exact absurd hc (not_closesHeld (OwnInv.of_reachable h) hopen)
  · -- one is, which ends the loop, whether others are left or not
    have hclosed : (s.bfLoop fd time).openFds fd = none :=
      openFds_bfLoop_of_not (Or.inl (not_le.mp hfull))
    rw [flushed_iff]
    constructor
    · intro hflush
      exact Or.inl (hflush ⟨fd, by rw [hm]; rfl, hclosed⟩)
    · intro hu _
      exact hu.resolve_right hfull

/-- **Step lemma.** A step of the main thread closes its connection only if no request is left,
exactly when it is taken undisturbed. -/
theorem flushed_of_closes_iff (hbf : cfg.policy = .bf) (h : (server cfg).Reachable s)
    (hst : Step s .main t) : (ClosesHeld s t → Flushed s) ↔ Undisturbed s := by
  have hown := OwnInv.of_reachable h
  cases hst with
  | accept fd hm hfd hfree =>
    -- no connection is held yet
    refine iff_of_true ?_ (undisturbed_of_main (by simp [hm]) (by simp [hm]))
    intro ⟨x, hx, _⟩
    rw [hm] at hx
    cases hx
  | mainLock rand wake fd time hm hw => exact flushed_mainSection_iff hbf hown hm rand wake time
  | blockWake wake fd time hm hw =>
    -- the loop of the other policy closes nothing
    have hopen : (s.blockLoop wake fd time).openFds = s.openFds := by
      unfold State.blockLoop
      split <;> rfl
    apply iff_of_true (fun hc => absurd hc (not_closesHeld hown hopen))
    exact undisturbed_of_main (by simp [hm]) (by simp [hm])
  | bfWake fd time hm => exact flushed_bfLoop_iff h hm
  | mainSpurious hm =>
    refine iff_of_true (fun hc => absurd hc (not_closesHeld hown rfl)) (undisturbed_of_main ?_ ?_)
    · intro x hx
      rw [hx] at hm
      cases hm
    · intro x time hx
      rw [hx] at hm
      cases hm

/-! ### Runs -/

/-- The steps of a run the main thread takes undisturbed; a worker may take any. -/
def UndisturbedStep (s : State cfg) : Thread cfg → Prop
  | .main => Undisturbed s
  | .worker _ => True

/-- **Block and flush.** In every run in which the main thread takes its steps undisturbed, it
closes a connection only when no request is left; and wherever a run of the server gets to, a step
it takes otherwise closes the connection with a request left. -/
theorem bf_flushes_iff (hbf : cfg.policy = .bf) :
    (∀ s t : State cfg, ((server cfg).restrict UndisturbedStep).Reachable s →
      ((server cfg).restrict UndisturbedStep).step s .main t → ClosesHeld s t → Flushed s) ∧
    (∀ s t : State cfg, (server cfg).Reachable s → (server cfg).step s .main t →
      ¬ Undisturbed s → ClosesHeld s t ∧ ¬ Flushed s) := by
  constructor
  · intro s t h hst
    exact (flushed_of_closes_iff hbf h.of_restrict hst.2).mpr hst.1
  · intro s t h hst hnot
    -- a step that is not taken undisturbed does not flush
    have hiff := flushed_of_closes_iff hbf h hst
    by_contra hcon
    refine hnot (hiff.mp fun hc => ?_)
    by_contra hflush
    exact hcon ⟨hc, hflush⟩

/-! ### Two runs with one worker and room for one task -/

/-- One worker, room for one task, policy `bf`. -/
def oneTaskBf : Config := ⟨.bf, 1, 1, Nat.one_pos, Nat.one_pos⟩

/-- The only worker. -/
def theWorker : Fin oneTaskBf.maxThreads := ⟨0, Nat.one_pos⟩

/-- A signal that wakes everybody. -/
def wakeAll : Fin oneTaskBf.maxThreads → Bool := fun _ => true

theorem validWake_wakeAll (workers : Fin oneTaskBf.maxThreads → WorkerPc) :
    ValidWake workers wakeAll := by
  rintro ⟨w, hw⟩
  exact ⟨w, hw, rfl⟩

/-- The first connection is in the queue. -/
def queued : State oneTaskBf :=
  State.initial oneTaskBf |>.acceptConn 4 |>.mainSection (fun _ => 0) wakeAll 4 ⟨10, 0⟩

/-- The second has found it with the worker, and is waiting when it is finished. -/
def finished : State oneTaskBf :=
  queued |>.takeSection theWorker ⟨11, 0⟩ |>.acceptConn 5
    |>.mainSection (fun _ => 0) wakeAll 5 ⟨12, 0⟩
    |>.handleReq theWorker 4 (some ⟨10, 0⟩) |>.closeReq theWorker 4 |>.finishSection theWorker 4

theorem undisturbed_of_accepting {s : State cfg} (h : s.main = .accepting) : Undisturbed s :=
  undisturbed_of_main (by simp [h]) (by simp [h])

theorem reachable_main {s t : State cfg}
    (h : ((server cfg).restrict UndisturbedStep).Reachable s) (hu : Undisturbed s)
    (hst : Step s .main t) : ((server cfg).restrict UndisturbedStep).Reachable t :=
  h.tail (show ((server cfg).restrict UndisturbedStep).step s .main t from ⟨hu, hst⟩)

theorem reachable_worker {s t : State cfg} {w : Fin cfg.maxThreads}
    (h : ((server cfg).restrict UndisturbedStep).Reachable s) (hst : Step s (.worker w) t) :
    ((server cfg).restrict UndisturbedStep).Reachable t :=
  h.tail (show ((server cfg).restrict UndisturbedStep).step s (.worker w) t from ⟨trivial, hst⟩)

theorem finished_reachable :
    ((server oneTaskBf).restrict UndisturbedStep).Reachable finished := by
  have h : ((server oneTaskBf).restrict UndisturbedStep).Reachable (State.initial oneTaskBf) :=
    System.Reachable.of_init rfl
  have h := reachable_main h (undisturbed_of_accepting rfl) (Step.accept _ 4 rfl (by decide) rfl)
  have h := reachable_main h
    ((undisturbed_accepted_iff rfl).mpr fun hfull => absurd hfull (by decide))
    (Step.mainLock _ (fun _ => 0) wakeAll 4 ⟨10, 0⟩ rfl (validWake_wakeAll _))
  have h := reachable_worker h (Step.take _ theWorker ⟨11, 0⟩ (Or.inl rfl))
  have h := reachable_main h (undisturbed_of_accepting rfl) (Step.accept _ 5 rfl (by decide) rfl)
  have h := reachable_main h ((undisturbed_accepted_iff rfl).mpr fun _ => by decide)
    (Step.mainLock _ (fun _ => 0) wakeAll 5 ⟨12, 0⟩ rfl (validWake_wakeAll _))
  have h := reachable_worker h (Step.handle _ theWorker 4 (some ⟨10, 0⟩) rfl)
  have h := reachable_worker h (Step.close _ theWorker 4 rfl)
  exact reachable_worker h (Step.finish _ theWorker 4 rfl)

/-- The second connection is closed with nothing left. -/
theorem bf_flushes_iff_finished : Flushed finished := by
  have hundisturbed : Undisturbed finished := by
    constructor
    · intro fd hm
      cases hm
    · intro _ _ _
      exact Or.inl rfl
  exact (bf_flushes_iff rfl).1 finished (finished.bfLoop 5 ⟨12, 0⟩) finished_reachable
    ⟨hundisturbed, Step.bfWake _ 5 ⟨12, 0⟩ rfl⟩ ⟨5, rfl, rfl⟩

/-- The second connection arrives before the worker has taken the first, and is closed at once. -/
theorem bf_closes_unflushed :
    (server oneTaskBf).Reachable (queued.acceptConn 5) ∧
    (server oneTaskBf).step (queued.acceptConn 5) .main
      ((queued.acceptConn 5).mainSection (fun _ => 0) wakeAll 5 ⟨12, 0⟩) ∧
    ClosesHeld (queued.acceptConn 5)
      ((queued.acceptConn 5).mainSection (fun _ => 0) wakeAll 5 ⟨12, 0⟩) ∧
    ¬ Flushed (queued.acceptConn 5) := by
  have hreach : (server oneTaskBf).Reachable (queued.acceptConn 5) :=
    (System.Reachable.of_init rfl : (server oneTaskBf).Reachable (State.initial oneTaskBf))
      |>.tail (Step.accept _ 4 rfl (by decide) rfl)
      |>.tail (Step.mainLock _ (fun _ => 0) wakeAll 4 ⟨10, 0⟩ rfl (validWake_wakeAll _))
      |>.tail (Step.accept _ 5 rfl (by decide) rfl)
  refine ⟨hreach, Step.mainLock _ (fun _ => 0) wakeAll 5 ⟨12, 0⟩ rfl (validWake_wakeAll _),
    ⟨5, rfl, rfl⟩, fun h => ?_⟩
  exact absurd h.1 (by decide)

end Server
end OsHomework
