import OsHomework.Server.Model

/-!
# What a step of the server can do

Each section is a short sequence of primitive moves: accept, read the clock, drop
a pending request, drop the new connection, enqueue it, go to sleep, take a
request, hand it to `requestHandle`, close it, finish it. `Stable Inv` lists what
an invariant has to survive, one clause for each move with the facts the code has
checked at that point, and `Stable.step` derives preservation by every step of
every policy. The policies are analysed here and nowhere else.

`Stable.bounded` is what makes the drop policies fall through to `insertReq` with
room in the queue: the section enters them with the server full, and a full
server that has dropped one pending request is no longer overloaded.
-/

namespace OsHomework
namespace Server

variable {cfg : Config}

/-- The main thread runs inside its section, with `connfd` and `time` in hand. -/
def MainPc.Decides (pc : MainPc) (connfd : Int) (time : Timeval) : Prop :=
  pc = .deciding connfd time ∨ pc = .blockWait connfd time true ∨ pc = .bfWait connfd time true

theorem MainPc.Decides.held {pc : MainPc} {fd : Int} {t : Timeval} (h : pc.Decides fd t) :
    pc.held = some fd := by
  rcases h with rfl | rfl | rfl <;> rfl

/-- A worker that holds the mutex at the top of its loop. -/
def WorkerPc.Ready (pc : WorkerPc) : Prop := pc = .idle ∨ pc = .waiting true

theorem WorkerPc.Ready.held {pc : WorkerPc} (h : pc.Ready) : pc.held = none := by
  rcases h with rfl | rfl <;> rfl

theorem WorkerPc.Ready.busyFd {pc : WorkerPc} (h : pc.Ready) : pc.busyFd = none := by
  rcases h with rfl | rfl <;> rfl

theorem WorkerPc.asleep_iff {pc : WorkerPc} : pc.asleep = true ↔ pc = .waiting false := by
  cases pc with
  | waiting b => cases b <;> simp [WorkerPc.asleep]
  | _ => simp [WorkerPc.asleep]

/-- Preservation of `Inv` by each primitive move. -/
structure Stable (Inv : State cfg → Prop) : Prop where
  bounded : ∀ s, Inv s → s.pendingReqs.getQsize + s.busyThreads.getQsize ≤ cfg.maxTasks
  accept : ∀ s fd, Inv s → s.main = .accepting → s.openFds fd = none → Inv (s.acceptConn fd)
  record : ∀ s fd t, Inv s → s.main = .accepted fd → Inv (s.recordArrival fd t)
  dropPending : ∀ s fd t (i : ℕ) r, Inv s → s.main = .deciding fd t →
    s.pendingReqs.reqs[i]? = some r → Inv (s.dropPending i)
  dropNew : ∀ s fd t, Inv s → s.main.Decides fd t → Inv (s.dropNew fd)
  enqueue : ∀ s fd t wake, Inv s → s.main.Decides fd t →
    s.pendingReqs.getQsize + s.busyThreads.getQsize < cfg.maxTasks →
    ValidWake s.workers wake → Inv (s.enqueue wake fd t)
  blockWait : ∀ s fd t, Inv s → s.main.Decides fd t →
    cfg.maxTasks ≤ s.pendingReqs.getQsize + s.busyThreads.getQsize →
    Inv { s with main := .blockWait fd t false }
  bfWait : ∀ s fd t, Inv s → s.main.Decides fd t →
    cfg.maxTasks ≤ s.pendingReqs.getQsize + s.busyThreads.getQsize →
    s.busyThreads.reqs ≠ [] → Inv { s with main := .bfWait fd t false }
  signalMain : ∀ s, Inv s → Inv s.signalMain
  sleep : ∀ s w, Inv s → (s.workers w).Ready → s.pendingReqs.reqs = [] →
    Inv (s.setWorker w (.waiting false))
  wake : ∀ s w, Inv s → s.workers w = .waiting false → Inv (s.setWorker w (.waiting true))
  take : ∀ s w tt1 r rs, Inv s → (s.workers w).Ready → s.pendingReqs.reqs = r :: rs →
    Inv (s.takeSection w tt1)
  handle : ∀ s w fd arrival, Inv s → s.workers w = .handling fd arrival →
    Inv (s.handleReq w fd arrival)
  close : ∀ s w fd, Inv s → s.workers w = .handled fd → Inv (s.closeReq w fd)
  finish : ∀ s w fd, Inv s → s.workers w = .closed fd → Inv (s.finishSection w fd)

namespace State

/-! ### Dropping pending requests -/

/-- On a non-empty queue `removeFirstReq` is `removeReq` at index `0`. -/
theorem dropPending_zero {s : State cfg} (h : s.pendingReqs.getQsize ≠ 0) :
    closeFd s.pendingReqs.removeFirstReq.1 { s with pendingReqs := s.pendingReqs.removeFirstReq.2 }
      = s.dropPending 0 := by
  have hne : s.pendingReqs.isQempty = false := by
    simpa [ReqQ.isQempty] using h
  have hin : ¬((0 : Int) < 0 ∨ (0 : Int) ≥ s.pendingReqs.getQsize) := by omega
  unfold dropPending ReqQ.removeReq
  rw [hne, if_neg (by decide), if_neg hin, if_pos rfl]

/-- The state after the entry at `i` has been dropped. -/
theorem dropPending_eq {s : State cfg} {i : ℕ} {r : Req} (h : s.pendingReqs.reqs[i]? = some r) :
    s.dropPending i =
      closeFd r.data
        { s with pendingReqs := { s.pendingReqs with reqs := s.pendingReqs.reqs.eraseIdx i } } := by
  unfold dropPending
  rw [ReqQ.removeReq_of_lt h]

theorem getQsize_dropPending {s : State cfg} {i : ℕ} {r : Req}
    (h : s.pendingReqs.reqs[i]? = some r) :
    (s.dropPending i).pendingReqs.getQsize + 1 = s.pendingReqs.getQsize := by
  have hi : i < s.pendingReqs.reqs.length := (List.getElem?_eq_some_iff.mp h).1
  rw [dropPending_eq h]
  change (s.pendingReqs.reqs.eraseIdx i).length + 1 = s.pendingReqs.reqs.length
  rw [List.length_eraseIdx_of_lt hi]
  omega

@[simp] theorem dropPending_main (s : State cfg) (i : Int) : (s.dropPending i).main = s.main := rfl

@[simp] theorem dropPending_busyThreads (s : State cfg) (i : Int) :
    (s.dropPending i).busyThreads = s.busyThreads := rfl

/-- The index `rand() % getQsize(pending_reqs)` is inside a non-empty queue. -/
theorem exists_random_entry {s : State cfg} (h : s.pendingReqs.isQempty = false) (x : ℕ) :
    ∃ r, s.pendingReqs.reqs[x % s.pendingReqs.getQsize]? = some r := by
  -- a remainder is below the number it is taken by
  have hpos : 0 < s.pendingReqs.getQsize := by
    simp only [ReqQ.isQempty, beq_eq_false_iff_ne] at h
    omega
  exact ⟨_, List.getElem?_eq_getElem (Nat.mod_lt x hpos)⟩

theorem dropRandom_frame (rand : ℕ → ℕ) (i n : ℕ) (s : State cfg) :
    (s.dropRandom rand i n).main = s.main ∧ (s.dropRandom rand i n).workers = s.workers ∧
      (s.dropRandom rand i n).busyThreads = s.busyThreads := by
  induction n generalizing i s with
  | zero => exact ⟨rfl, rfl, rfl⟩
  | succ n ih =>
    unfold dropRandom
    split
    · exact ⟨rfl, rfl, rfl⟩
    · exact ih _ _

theorem getQsize_dropRandom_le (rand : ℕ → ℕ) (i n : ℕ) (s : State cfg) :
    (s.dropRandom rand i n).pendingReqs.getQsize ≤ s.pendingReqs.getQsize := by
  induction n generalizing i s with
  | zero => exact le_refl _
  | succ n ih =>
    unfold dropRandom
    split
    · exact le_refl _
    · next hne =>
      -- one request goes in this round, and none comes back in the others
      obtain ⟨r, hr⟩ := exists_random_entry (by simpa using hne) (rand i)
      have h1 := getQsize_dropPending hr
      have h2 := ih (i + 1) (s.dropPending ↑(rand i % s.pendingReqs.getQsize))
      omega

/-- At least one request goes when there is one and a round to run. -/
theorem getQsize_dropRandom_lt (rand : ℕ → ℕ) (i n : ℕ) (s : State cfg)
    (h : s.pendingReqs.getQsize ≠ 0) :
    (s.dropRandom rand i (n + 1)).pendingReqs.getQsize < s.pendingReqs.getQsize := by
  have hne : s.pendingReqs.isQempty = false := by
    simpa [ReqQ.isQempty] using h
  obtain ⟨r, hr⟩ := exists_random_entry hne (rand i)
  have h1 := getQsize_dropPending hr
  unfold dropRandom
  rw [hne, if_neg (by decide)]
  have h2 := getQsize_dropRandom_le rand (i + 1) n
    (s.dropPending ↑(rand i % s.pendingReqs.getQsize))
  omega

/-! ### Taking and finishing a request -/

/-- The take section on a non-empty queue. -/
theorem takeSection_cons {s : State cfg} {r : Req} {rs : List Req}
    (h : s.pendingReqs.reqs = r :: rs) (w : Fin cfg.maxThreads) (tt1 : Timeval) :
    s.takeSection w tt1 =
      setWorker w (.handling r.data (some r.insertionTime))
        { s with
          pendingReqs := { s.pendingReqs with reqs := rs }
          busyThreads := s.busyThreads.insertReq r.data tt1
          log := s.log ++ [.taken (s.openFds r.data)] ++
            (if s.busyThreads.isQfull then [.queueFull] else []) } := by
  have hne : s.pendingReqs.getQsize ≠ 0 := by simp [ReqQ.getQsize, h]
  unfold takeSection
  rw [if_neg hne]
  simp [ReqQ.removeFirstReq, ReqQ.getFirstReqTime, h]

/-- The take section on an empty queue. -/
theorem takeSection_nil {s : State cfg} (h : s.pendingReqs.reqs = []) (w : Fin cfg.maxThreads)
    (tt1 : Timeval) : s.takeSection w tt1 = s.setWorker w (.waiting false) := by
  unfold takeSection
  rw [if_pos (by simp [ReqQ.getQsize, h])]

end State

/-! ### The derivation -/

namespace Stable

variable {Inv : State cfg → Prop} {s t : State cfg}

theorem blockLoop (hI : Stable Inv) (h : Inv s) {fd : Int} {time : Timeval}
    (hm : s.main.Decides fd time) {wake : Fin cfg.maxThreads → Bool}
    (hw : ValidWake s.workers wake) : Inv (s.blockLoop wake fd time) := by
  unfold State.blockLoop
  split
  · next hov => exact hI.blockWait s fd time h hm (of_decide_eq_true hov)
  · next hov =>
    exact hI.enqueue s fd time wake h hm (by simpa [State.overloaded] using hov) hw

theorem bfLoop (hI : Stable Inv) (h : Inv s) {fd : Int} {time : Timeval}
    (hm : s.main.Decides fd time) : Inv (s.bfLoop fd time) := by
  unfold State.bfLoop
  split
  · next hov =>
    -- the main thread goes on waiting, since some worker is busy
    obtain ⟨hov, hbusy⟩ := Bool.and_eq_true_iff.mp hov
    apply hI.bfWait s fd time h hm (of_decide_eq_true hov)
    intro hnil
    rw [ReqQ.isQempty_iff.mpr hnil] at hbusy
    exact absurd hbusy (by decide)
  · exact hI.dropNew s fd time h hm

theorem dropRandom (hI : Stable Inv) {fd : Int} {time : Timeval} (rand : ℕ → ℕ) (i n : ℕ)
    (h : Inv s) (hm : s.main = .deciding fd time) : Inv (s.dropRandom rand i n) := by
  induction n generalizing i s with
  | zero => exact h
  | succ n ih =>
    unfold State.dropRandom
    split
    · exact h
    · next hne =>
      -- a drop is one of the moves that the invariant survives
      obtain ⟨r, hr⟩ := State.exists_random_entry (by simpa using hne) (rand i)
      exact ih (i + 1) (hI.dropPending s fd time _ r h hm hr) hm

/-- The section of the main thread, policy by policy. -/
theorem mainSection (hI : Stable Inv) (h : Inv s) {fd : Int} (hm : s.main = .accepted fd)
    (time : Timeval) (rand : ℕ → ℕ) {wake : Fin cfg.maxThreads → Bool}
    (hw : ValidWake s.workers wake) : Inv (s.mainSection rand wake fd time) := by
  unfold State.mainSection
  -- the arrival time has been read; all that follows starts there
  have hr := hI.record s fd time h hm
  have hmain : (s.recordArrival fd time).main = .deciding fd time := rfl
  have hwork : ValidWake (s.recordArrival fd time).workers wake := hw
  generalize s.recordArrival fd time = u at hr hmain hwork
  have hdec : u.main.Decides fd time := Or.inl hmain
  dsimp only
  split
  · next hov =>
    have hfull : cfg.maxTasks ≤ u.pendingReqs.getQsize + u.busyThreads.getQsize :=
      of_decide_eq_true hov
    have hle := hI.bounded u hr
    cases cfg.policy with
    | block => exact hI.blockLoop hr hdec hwork
    | dt => exact hI.dropNew u fd time hr hdec
    | bf => exact hI.bfLoop hr hdec
    | dh =>
      dsimp only
      split
      · next hne =>
        -- one request out, the new one in
        rw [State.dropPending_zero hne]
        obtain ⟨r, hget⟩ : ∃ r, u.pendingReqs.reqs[0]? = some r :=
          ⟨_, List.getElem?_eq_getElem (Nat.pos_of_ne_zero hne)⟩
        have hsize := State.getQsize_dropPending hget
        refine hI.enqueue _ fd time wake (hI.dropPending u fd time 0 r hr hmain hget) hdec ?_ hwork
        rw [State.dropPending_busyThreads]
        change (u.dropPending ((0 : ℕ) : Int)).pendingReqs.getQsize + _ < _
        omega
      · -- nothing is pending: the new request itself is dropped
        exact hI.dropNew u fd time hr hdec
    | random =>
      dsimp only
      split
      · next hne =>
        -- half of the pending requests, rounded up, is at least one
        obtain ⟨n, hn⟩ : ∃ n, (u.pendingReqs.getQsize + 1) / 2 = n + 1 :=
          ⟨(u.pendingReqs.getQsize + 1) / 2 - 1, by omega⟩
        rw [hn]
        obtain ⟨hf1, hf2, hf3⟩ := State.dropRandom_frame rand 0 (n + 1) u
        have hlt := State.getQsize_dropRandom_lt rand 0 n u hne
        refine hI.enqueue _ fd time wake (hI.dropRandom rand 0 (n + 1) hr hmain) ?_ ?_ ?_
        · rw [hf1]
          exact hdec
        · rw [hf3]
          omega
        · rw [hf2]
          exact hwork
      · exact hI.dropNew u fd time hr hdec
  · next hov =>
    exact hI.enqueue u fd time wake hr hdec (by simpa [State.overloaded] using hov) hwork

/-- **Step lemma.** A stable invariant is preserved by every step. -/
theorem step (hI : Stable Inv) (h : Inv s) {l : Thread cfg} (hst : Step s l t) : Inv t := by
  cases hst with
  | accept fd hm hpos hfree => exact hI.accept s fd h hm hfree
  | mainLock rand wake fd time hm hw => exact hI.mainSection h hm time rand hw
  | blockWake wake fd time hm hw => exact hI.blockLoop h (Or.inr (Or.inl hm)) hw
  | bfWake fd time hm => exact hI.bfLoop h (Or.inr (Or.inr hm))
  | mainSpurious hm => exact hI.signalMain s h
  -- a worker that finds nothing goes to sleep
  | take w tt1 hw =>
    cases hq : s.pendingReqs.reqs with
    | nil =>
      rw [State.takeSection_nil hq]
      exact hI.sleep s w h hw hq
    | cons r rs => exact hI.take s w tt1 r rs h hw hq
  | workerSpurious w hw => exact hI.wake s w h hw
  | handle w fd arrival hw => exact hI.handle s w fd arrival h hw
  | close w fd hw => exact hI.close s w fd h hw
  | finish w fd hw => exact hI.finish s w fd h hw

/-- **Run lemma.** A stable invariant that holds initially holds in every
reachable state. -/
theorem reachable (hI : Stable Inv) (hinit : Inv (State.initial cfg))
    (h : (server cfg).Reachable s) : Inv s := by
  refine h.invariant ?_ (fun _ _ _ hs hst => hI.step hs hst)
  rintro _ rfl
  exact hinit

end Stable

/-! ### A run with one worker -/

/-- One worker, room for one task, policy `block`. -/
def oneWorker : Config := ⟨.block, 1, 1, le_refl _, le_refl _⟩

/-- The first connection is with the worker; the second has found the server full
and the main thread waits. -/
def sampleState : State oneWorker :=
  State.initial oneWorker
    |>.acceptConn 4
    |>.mainSection (fun _ => 0) (fun _ => true) 4 ⟨10, 0⟩
    |>.takeSection ⟨0, Nat.one_pos⟩ ⟨11, 0⟩
    |>.acceptConn 5
    |>.mainSection (fun _ => 0) (fun _ => true) 5 ⟨12, 0⟩

theorem sampleState_reachable : (server oneWorker).Reachable sampleState := by
  have hwake : ∀ ws : Fin oneWorker.maxThreads → WorkerPc, ValidWake ws (fun _ => true) :=
    fun _ ⟨w, hw⟩ => ⟨w, hw, rfl⟩
  have hinit : (server oneWorker).Reachable (State.initial oneWorker) :=
    System.Reachable.of_init rfl
  exact hinit
    |>.tail (Step.accept _ 4 rfl (by decide) rfl)
    |>.tail (Step.mainLock _ (fun _ => 0) _ 4 ⟨10, 0⟩ rfl (hwake _))
    |>.tail (Step.take _ ⟨0, Nat.one_pos⟩ ⟨11, 0⟩ (Or.inl rfl))
    |>.tail (Step.accept _ 5 rfl (by decide) rfl)
    |>.tail (Step.mainLock _ (fun _ => 0) _ 5 ⟨12, 0⟩ rfl (hwake _))

end Server
end OsHomework
