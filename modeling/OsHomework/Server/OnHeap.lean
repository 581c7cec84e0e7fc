import OsHomework.Server.Admission
import OsHomework.Server.ReqRefine

/-!
# The server on the heap

`Model` keeps the two queues as lists, with the times in them. Here the same sections are run on
what `server.c` really has: two linked structures of `reqQ.c` and pointers to `struct timeval`s, all
of them on the heap. A section that reads through a null, a dangling or an unwritten pointer, or
whose sum of the two sizes is no `int`, has no outcome, and takes the whole server to `none`.

The `timeval` that the main thread allocates goes with the request into `pending_reqs` and stays
there when the node is freed; the worker that has taken the request reads it after the section, when
the node is gone. Nobody frees it.

`State.Refines` relates the two levels. There is one lemma for each operation of a queue, from which
come one for each section, and from these that the two levels have the same runs (`onHeap_runs`):
what is proved about the lists holds of the pointers.
-/

namespace OsHomework
namespace Server
namespace OnHeap

/-- Where the main thread stands, with the pointer `time`. -/
inductive MainPc
  | accepting
  | accepted (connfd : Int)
  | deciding (connfd : Int) (time : ℕ)
  | blockWait (connfd : Int) (time : ℕ) (signalled : Bool)
  | bfWait (connfd : Int) (time : ℕ) (signalled : Bool)
  deriving DecidableEq, Repr

/-- Where a worker stands, with the pointer `head_insertion_time`. -/
inductive WorkerPc
  | idle
  | waiting (signalled : Bool)
  | handling (fd : Int) (headInsertionTime : ℕ)
  | handled (fd : Int)
  | closed (fd : Int)
  deriving DecidableEq, Repr

def MainPc.asleep : MainPc → Bool
  | .blockWait _ _ false | .bfWait _ _ false => true
  | _ => false

def WorkerPc.asleep : WorkerPc → Bool
  | .waiting false => true
  | _ => false

/-- The server, with its structures on the heap. -/
structure State (cfg : Config) where
  pendingReqs : ReqList
  busyThreads : ReqList
  /-- The `struct timeval`s, by their addresses. -/
  times : ℕ → Option Timeval
  main : MainPc
  workers : Fin cfg.maxThreads → WorkerPc
  openFds : Int → Option Conn
  nextConn : Conn
  log : List Event

namespace State

variable {cfg : Config}

def initial (cfg : Config) : State cfg where
  pendingReqs := ReqList.createReqQueue cfg.maxTasks
  busyThreads := ReqList.createReqQueue cfg.maxThreads
  times := fun _ => none
  main := .accepting
  workers := fun _ => .idle
  openFds := fun _ => none
  nextConn := 0
  log := []

/-- There is nothing at the address. -/
def Unused (s : State cfg) (a : ℕ) : Prop :=
  a ≠ 0 ∧ s.pendingReqs.nodes a = none ∧ s.busyThreads.nodes a = none ∧ s.times a = none

/-! ### The pieces the sections are made of -/

def closeFd (fd : Int) (s : State cfg) : State cfg :=
  { s with
    openFds := Function.update s.openFds fd none
    log := s.log ++ [.closed (s.openFds fd)] }

def acceptConn (fd : Int) (s : State cfg) : State cfg :=
  { s with
    main := .accepted fd
    openFds := Function.update s.openFds fd (some s.nextConn)
    nextConn := s.nextConn + 1
    log := s.log ++ [.accepted s.nextConn] }

/-- `gettimeofday(p, NULL)`, for the pointer that `malloc` has answered. -/
def writeTime (p : ℕ) (time : Timeval) (s : State cfg) : State cfg :=
  { s with times := Function.update s.times p (some time) }

/-- `time = malloc(...)` and `gettimeofday(time, NULL)` in the main thread's section. -/
def recordArrival (connfd : Int) (p : ℕ) (time : Timeval) (s : State cfg) : State cfg :=
  { s.writeTime p time with
    main := .deciding connfd p
    log := s.log ++ [.recorded (s.openFds connfd) time] }

def signalWorkers (wake : Fin cfg.maxThreads → Bool) (s : State cfg) : State cfg :=
  { s with
    workers := fun w =>
      if (s.workers w).asleep && wake w then .waiting true else s.workers w }

def signalMain (s : State cfg) : State cfg :=
  { s with
    main :=
      match s.main with
      | .blockWait fd p _ => .blockWait fd p true
      | .bfWait fd p _ => .bfWait fd p true
      | pc => pc }

def dropNew (connfd : Int) (s : State cfg) : State cfg :=
  { s.closeFd connfd with main := .accepting }

def setWorker (w : Fin cfg.maxThreads) (pc : WorkerPc) (s : State cfg) : State cfg :=
  { s with workers := Function.update s.workers w pc }

/-- `insertReq(pending_reqs, connfd, time)`, `cond_signal`, unlock. -/
def enqueue (alloc : State cfg → ℕ) (wake : Fin cfg.maxThreads → Bool) (connfd : Int) (p : ℕ)
    (s : State cfg) : Option (State cfg) := do
  let q ← s.pendingReqs.insertReq (alloc s) connfd p
  some (signalWorkers wake
    { s with
      pendingReqs := q
      main := .accepting
      log := s.log ++ (if s.pendingReqs.isQfull then [.queueFull] else []) })

/-! ### The sections of the main thread -/

/-- `getQsize(pending_reqs) + getQsize(busy_threads) >= max_tasks`, if the sum is an `int`. -/
def overloaded (s : State cfg) : Option Bool :=
  let n := s.pendingReqs.getQsize + s.busyThreads.getQsize
  if -2 ^ 31 ≤ n ∧ n < 2 ^ 31 then some (decide (n ≥ cfg.maxTasks)) else none

def blockLoop (alloc : State cfg → ℕ) (wake : Fin cfg.maxThreads → Bool) (connfd : Int) (p : ℕ)
    (s : State cfg) : Option (State cfg) := do
  let isOverloaded ← s.overloaded
  if isOverloaded then some { s with main := .blockWait connfd p false }
  else s.enqueue alloc wake connfd p

def bfLoop (connfd : Int) (p : ℕ) (s : State cfg) : Option (State cfg) := do
  let isOverloaded ← s.overloaded
  if isOverloaded && !s.busyThreads.isQempty then some { s with main := .bfWait connfd p false }
  else some (s.dropNew connfd)

/-- The `for` loop of policy `random`. -/
def dropRandom (rand : ℕ → ℕ) : ℕ → ℕ → State cfg → Option (State cfg)
  | _, 0, s => some s
  | i, n + 1, s =>
    if s.pendingReqs.isQempty then some s
    else do
      let (fd, q) ← s.pendingReqs.removeReq (rand i % s.pendingReqs.getQsize)
      dropRandom rand (i + 1) n (closeFd fd { s with pendingReqs := q })

def mainSection (alloc : State cfg → ℕ) (rand : ℕ → ℕ) (wake : Fin cfg.maxThreads → Bool)
    (connfd : Int) (time : Timeval) (s : State cfg) : Option (State cfg) := do
  let p := alloc s
  let s := s.recordArrival connfd p time
  let isOverloaded ← s.overloaded
  if isOverloaded then
    match cfg.policy with
    | .block => s.blockLoop alloc wake connfd p
    | .dh =>
      if s.pendingReqs.getQsize ≠ 0 then do
        let (fd, q) ← s.pendingReqs.removeFirstReq
        enqueue alloc wake connfd p (closeFd fd { s with pendingReqs := q })
      else some (s.dropNew connfd)
    | .dt => some (s.dropNew connfd)
    | .random =>
      if s.pendingReqs.getQsize ≠ 0 then do
        let s ← s.dropRandom rand 0 ((s.pendingReqs.getQsize + 1) / 2).toNat
        s.enqueue alloc wake connfd p
      else some (s.dropNew connfd)
    | .bf => s.bfLoop connfd p
  else s.enqueue alloc wake connfd p

/-! ### The sections of a worker -/

def takeSection (alloc : State cfg → ℕ) (w : Fin cfg.maxThreads) (tt1 : Timeval)
    (s : State cfg) : Option (State cfg) :=
  if s.pendingReqs.getQsize = 0 then some (s.setWorker w (.waiting false))
  else do
    let headInsertionTime ← s.pendingReqs.getFirstReqTime
    let (fd, q) ← s.pendingReqs.removeFirstReq
    let s := { s with pendingReqs := q }
    let p := alloc s
    let s := s.writeTime p tt1
    let b ← s.busyThreads.insertReq (alloc s) fd p
    some (setWorker w (.handling fd headInsertionTime)
      { s with
        busyThreads := b
        log := s.log ++ [.taken (s.openFds fd)] ++
          (if s.busyThreads.isQfull then [.queueFull] else []) })

/-- `requestHandle(fd, head_insertion_time, ...)`, which reads the time. -/
def handleReq (w : Fin cfg.maxThreads) (fd : Int) (headInsertionTime : ℕ) (s : State cfg) :
    Option (State cfg) := do
  let arrival ← s.times headInsertionTime
  some (setWorker w (.handled fd)
    { s with log := s.log ++ [.handled (s.openFds fd) (some arrival)] })

def closeReq (w : Fin cfg.maxThreads) (fd : Int) (s : State cfg) : State cfg :=
  setWorker w (.closed fd) (s.closeFd fd)

def finishSection (w : Fin cfg.maxThreads) (fd : Int) (s : State cfg) : Option (State cfg) := do
  let index ← s.busyThreads.findFileId fd
  let (_, b) ← s.busyThreads.removeReq index
  some (signalMain (setWorker w .idle { s with busyThreads := b }))

end State

/-! ### The step relation -/

/-- `malloc` answers an address at which there is nothing, as long as there is one. -/
def Allocates {cfg : Config} (alloc : State cfg → ℕ) : Prop :=
  ∀ (s : State cfg) (a : ℕ), s.Unused a → s.Unused (alloc s)

def ValidWake {n : ℕ} (workers : Fin n → WorkerPc) (wake : Fin n → Bool) : Prop :=
  (∃ w, (workers w).asleep) → ∃ w, (workers w).asleep ∧ wake w

/-- The steps of the server. From `none` there are none. -/
inductive Step {cfg : Config} : Option (State cfg) → Thread cfg → Option (State cfg) → Prop
  | accept (s : State cfg) (fd : Int) :
      s.main = .accepting → 0 ≤ fd → s.openFds fd = none →
      Step (some s) .main (some (s.acceptConn fd))
  | mainLock (s : State cfg) (alloc : State cfg → ℕ) (rand : ℕ → ℕ)
      (wake : Fin cfg.maxThreads → Bool) (connfd : Int) (time : Timeval) :
      s.main = .accepted connfd → Allocates alloc → ValidWake s.workers wake →
      Step (some s) .main (s.mainSection alloc rand wake connfd time)
  | blockWake (s : State cfg) (alloc : State cfg → ℕ) (wake : Fin cfg.maxThreads → Bool)
      (connfd : Int) (p : ℕ) :
      s.main = .blockWait connfd p true → Allocates alloc → ValidWake s.workers wake →
      Step (some s) .main (s.blockLoop alloc wake connfd p)
  | bfWake (s : State cfg) (connfd : Int) (p : ℕ) :
      s.main = .bfWait connfd p true → Step (some s) .main (s.bfLoop connfd p)
  | mainSpurious (s : State cfg) : s.main.asleep → Step (some s) .main (some s.signalMain)
  | take (s : State cfg) (alloc : State cfg → ℕ) (w : Fin cfg.maxThreads) (tt1 : Timeval) :
      s.workers w = .idle ∨ s.workers w = .waiting true → Allocates alloc →
      Step (some s) (.worker w) (s.takeSection alloc w tt1)
  | workerSpurious (s : State cfg) (w : Fin cfg.maxThreads) :
      s.workers w = .waiting false →
      Step (some s) (.worker w) (some (s.setWorker w (.waiting true)))
  | handle (s : State cfg) (w : Fin cfg.maxThreads) (fd : Int) (p : ℕ) :
      s.workers w = .handling fd p → Step (some s) (.worker w) (s.handleReq w fd p)
  | close (s : State cfg) (w : Fin cfg.maxThreads) (fd : Int) :
      s.workers w = .handled fd → Step (some s) (.worker w) (some (s.closeReq w fd))
  | finish (s : State cfg) (w : Fin cfg.maxThreads) (fd : Int) :
      s.workers w = .closed fd → Step (some s) (.worker w) (s.finishSection w fd)

/-- The server, from the accept loop of `main` on. -/
def server (cfg : Config) : System (Option (State cfg)) (Thread cfg) where
  init o := o = some (State.initial cfg)
  step := Step

/-! ### A queue on the heap -/

/-- What a pointer leads to. -/
def clock (times : ℕ → Option Timeval) (p : ℕ) : Timeval := (times p).getD ⟨0, 0⟩

/-- The structure stands for the queue, its pointers for the times. -/
def Reads (times : ℕ → Option Timeval) (limit : ℕ) (q : ReqList) (Q : ReqQ) : Prop :=
  ∃ L, ReqList.Stands limit q L ∧ (∀ e ∈ L, times e.2 ≠ none) ∧ Q = toReqQ (clock times) limit L

/-- What is on the heap before is still there. -/
def Keeps (times times' : ℕ → Option Timeval) : Prop :=
  ∀ p v, times p = some v → times' p = some v

section Queue

variable {times times' : ℕ → Option Timeval} {limit : ℕ} {q q' : ReqList} {Q : ReqQ}
  {L : List (Int × ℕ)} {p r : ℕ} {v : Timeval}

theorem clock_eq (h : times p = some v) : clock times p = v := by
  rw [clock, h, Option.getD_some]

theorem keeps_update (h : times p = none) : Keeps times (Function.update times p (some v)) := by
  intro p' v' hp'
  have hne : p' ≠ p := by
    rintro rfl
    rw [h] at hp'
    cases hp'
  rw [Function.update_of_ne hne]
  exact hp'

/-- More times do not change what a queue stands for. -/
theorem Reads.mono (h : Reads times limit q Q) (hkeeps : Keeps times times') :
    Reads times' limit q Q := by
  obtain ⟨L, hstands, hlive, rfl⟩ := h
  -- the pointers of the queue lead to times that are kept
  have hvalue : ∀ e ∈ L, times' e.2 = times e.2 := by
    intro e he
    obtain ⟨v, hv⟩ := Option.ne_none_iff_exists'.mp (hlive e he)
    rw [hv, hkeeps _ _ hv]
  refine ⟨L, hstands, fun e he => hvalue e he ▸ hlive e he, ?_⟩
  unfold toReqQ clock
  congr 1
  refine List.map_congr_left fun e he => ?_
  rw [hvalue e he]

theorem Reads.getQsize (h : Reads times limit q Q) : q.getQsize = Q.getQsize := by
  obtain ⟨L, hstands, -, rfl⟩ := h
  obtain ⟨A, hrep⟩ := hstands.rep
  rw [getQsize_toReqQ]
  exact hrep.curSize_eq

theorem Reads.isQempty (h : Reads times limit q Q) : q.isQempty = Q.isQempty := by
  have hsize : q.curSize = Q.getQsize := h.getQsize
  rw [ReqList.isQempty, ReqQ.isQempty, hsize, Bool.eq_iff_iff, beq_iff_eq, beq_iff_eq,
    Int.natCast_eq_zero]

theorem Reads.isQfull (h : Reads times limit q Q) : q.isQfull = Q.isQfull := by
  have hsize : q.curSize = Q.getQsize := h.getQsize
  obtain ⟨L, hstands, -, rfl⟩ := h
  rw [ReqList.isQfull, ReqQ.isQfull, hsize, hstands.maxSize_eq, Bool.eq_iff_iff, beq_iff_eq,
    beq_iff_eq]
  exact Int.ofNat_inj

/-- The nodes are finitely many. -/
theorem Reads.finite (h : Reads times limit q Q) : {a | q.nodes a ≠ none}.Finite := by
  obtain ⟨L, hstands, -⟩ := h
  obtain ⟨A, hrep⟩ := hstands.rep
  exact A.toFinset.finite_toSet.subset fun a ha => List.mem_toFinset.mpr (hrep.owned a ha)

/-- A call that returns an `int` and adds nothing to the queue. -/
theorem Reads.call (hlimit : (limit : ℤ) < 2 ^ 31) (hstands : ReqList.Stands limit q L)
    (hlive : ∀ e ∈ L, times e.2 ≠ none) {c : ReqCall} {o : Option (Int × ReqList)} {n : Int}
    (hop : ∀ r, q.call r c = o.map fun x => (.int x.1, x.2))
    (hret : (fifoCall limit L c).1 = .int n) (hsub : (fifoCall limit L c).2 ⊆ L) :
    ∃ q', o = some (n, q') ∧
      Reads times limit q' (toReqQ (clock times) limit (fifoCall limit L c).2) := by
  obtain ⟨A, hrep⟩ := hstands.rep
  obtain ⟨r, hr⟩ := hrep.exists_mallocAnswer
  -- what the list of requests says of the call
  obtain ⟨q', hcall, hstands'⟩ :=
    hstands.call ⟨by omega, hlimit⟩ hr (.inl (Int.natCast_nonneg limit))
  rw [hop, hret] at hcall
  obtain ⟨⟨n', q''⟩, rfl, heq⟩ := Option.map_eq_some_iff.mp hcall
  obtain ⟨hn, rfl⟩ := Prod.mk.inj heq
  obtain rfl := ReqRet.int.inj hn
  exact ⟨q'', rfl, _, hstands', fun e he => hlive e (hsub he), rfl⟩

/-- `insertReq`, with a pointer to a time. -/
theorem Reads.insertReq (hlimit : (limit : ℤ) < 2 ^ 31) (h : Reads times limit q Q)
    (hr : q.MallocAnswer r) (hp : times p = some v) (fd : Int) :
    ∃ q', q.insertReq r fd p = some q' ∧ Reads times limit q' (Q.insertReq fd v) := by
  obtain ⟨L, hstands, hlive, rfl⟩ := h
  obtain ⟨q', hcall, hstands'⟩ := hstands.insertReq ⟨by omega, hlimit⟩ hr
    (.inl (Int.natCast_nonneg limit))
  refine ⟨q', hcall, _, hstands', ?_, ?_⟩
  · -- a full queue is left as it is
    split
    · exact hlive
    · intro e he
      obtain he | he := List.mem_append.mp he
      · exact hlive e he
      · rw [List.mem_singleton.mp he, hp]
        exact Option.some_ne_none v
  · rw [← clock_eq hp, toReqQ_insertReq]
    rfl

/-- `removeFirstReq`. -/
theorem Reads.removeFirstReq (hlimit : (limit : ℤ) < 2 ^ 31) (h : Reads times limit q Q) :
    ∃ q', q.removeFirstReq = some (Q.removeFirstReq.1, q') ∧
      Reads times limit q' Q.removeFirstReq.2 := by
  obtain ⟨L, hstands, hlive, rfl⟩ := h
  obtain ⟨hret, hleft⟩ := toReqQ_removeFirstReq (clock times) limit L
  rw [hleft]
  exact Reads.call hlimit hstands hlive (c := .removeFirstReq) (fun _ => rfl)
    (congrArg Prod.fst hret) (List.tail_subset L)

/-- `removeReq`, inside the bounds or not. -/
theorem Reads.removeReq (hlimit : (limit : ℤ) < 2 ^ 31) (h : Reads times limit q Q) (index : Int) :
    ∃ q', q.removeReq index = some ((Q.removeReq index).1, q') ∧
      Reads times limit q' (Q.removeReq index).2 := by
  obtain ⟨L, hstands, hlive, rfl⟩ := h
  obtain ⟨hret, hleft⟩ := toReqQ_removeReq (clock times) limit L index
  have hsub : (fifoCall limit L (.removeReq index)).2 ⊆ L := by
    rw [fifoCall]
    split
    · exact List.Subset.refl L
    · exact (List.eraseIdx_sublist L _).subset
  rw [hleft]
  exact Reads.call hlimit hstands hlive (fun _ => rfl) hret hsub

/-- `findFileId`. -/
theorem Reads.findFileId (h : Reads times limit q Q) (fd : Int) :
    q.findFileId fd = some (Q.findFileId fd) := by
  obtain ⟨L, hstands, -, rfl⟩ := h
  obtain ⟨A, hrep⟩ := hstands.rep
  have hret := congrArg Prod.fst (toReqQ_findFileId (clock times) limit L fd)
  rw [hrep.findFileId fd, ← ReqRet.int.inj hret]

/-- `getFirstReqTime`, while there is a request: the pointer leads to its time. -/
theorem Reads.getFirstReqTime (h : Reads times limit q Q) (hne : Q.getQsize ≠ 0) :
    ∃ p v, q.getFirstReqTime = some p ∧ times p = some v ∧ Q.getFirstReqTime = some v := by
  obtain ⟨L, hstands, hlive, rfl⟩ := h
  obtain ⟨A, hrep⟩ := hstands.rep
  cases L with
  | nil => exact absurd rfl hne
  | cons e L =>
    obtain ⟨v, hv⟩ := Option.ne_none_iff_exists'.mp (hlive e List.mem_cons_self)
    -- the head of the list is the head of the queue
    exact ⟨e.2, v, hrep.getFirstReqTime, hv, congrArg some (clock_eq hv)⟩

end Queue

/-! ### The two levels -/

/-- The pointer of the main thread leads to its time. -/
inductive MainPc.Reads (times : ℕ → Option Timeval) : MainPc → Server.MainPc → Prop
  | accepting : MainPc.Reads times .accepting .accepting
  | accepted (connfd : Int) : MainPc.Reads times (.accepted connfd) (.accepted connfd)
  | deciding {connfd : Int} {p : ℕ} {v : Timeval} :
      times p = some v → MainPc.Reads times (.deciding connfd p) (.deciding connfd v)
  | blockWait {connfd : Int} {p : ℕ} {v : Timeval} {signalled : Bool} :
      times p = some v →
      MainPc.Reads times (.blockWait connfd p signalled) (.blockWait connfd v signalled)
  | bfWait {connfd : Int} {p : ℕ} {v : Timeval} {signalled : Bool} :
      times p = some v →
      MainPc.Reads times (.bfWait connfd p signalled) (.bfWait connfd v signalled)

/-- The pointer of a worker leads to the time of its request. -/
inductive WorkerPc.Reads (times : ℕ → Option Timeval) : WorkerPc → Server.WorkerPc → Prop
  | idle : WorkerPc.Reads times .idle .idle
  | waiting (signalled : Bool) : WorkerPc.Reads times (.waiting signalled) (.waiting signalled)
  | handling {fd : Int} {p : ℕ} {v : Timeval} :
      times p = some v → WorkerPc.Reads times (.handling fd p) (.handling fd (some v))
  | handled (fd : Int) : WorkerPc.Reads times (.handled fd) (.handled fd)
  | closed (fd : Int) : WorkerPc.Reads times (.closed fd) (.closed fd)

section Pcs

variable {times times' : ℕ → Option Timeval} {m : MainPc} {m' : Server.MainPc} {w : WorkerPc}
  {w' : Server.WorkerPc}

theorem MainPc.Reads.mono (h : m.Reads times m') (hkeeps : Keeps times times') :
    m.Reads times' m' := by
  cases h with
  | accepting => exact .accepting
  | accepted connfd => exact .accepted connfd
  | deciding hv => exact .deciding (hkeeps _ _ hv)
  | blockWait hv => exact .blockWait (hkeeps _ _ hv)
  | bfWait hv => exact .bfWait (hkeeps _ _ hv)

theorem WorkerPc.Reads.mono (h : w.Reads times w') (hkeeps : Keeps times times') :
    w.Reads times' w' := by
  cases h with
  | idle => exact .idle
  | waiting signalled => exact .waiting signalled
  | handling hv => exact .handling (hkeeps _ _ hv)
  | handled fd => exact .handled fd
  | closed fd => exact .closed fd

theorem MainPc.Reads.asleep_eq (h : m.Reads times m') : m.asleep = m'.asleep := by
  cases h with
  | accepting | accepted | deciding => rfl
  | @blockWait _ _ _ signalled | @bfWait _ _ _ signalled => cases signalled <;> rfl

theorem WorkerPc.Reads.asleep_eq (h : w.Reads times w') : w.asleep = w'.asleep := by
  cases h with
  | idle | handling | handled | closed => rfl
  | waiting signalled => cases signalled <;> rfl

end Pcs

namespace State

variable {cfg : Config}

/-- The state on the heap stands for the state of the model. -/
structure Refines (s : State cfg) (t : Server.State cfg) : Prop where
  pending : Reads s.times cfg.maxTasks s.pendingReqs t.pendingReqs
  busy : Reads s.times cfg.maxThreads s.busyThreads t.busyThreads
  main : s.main.Reads s.times t.main
  workers : ∀ w, (s.workers w).Reads s.times (t.workers w)
  openFds : t.openFds = s.openFds
  nextConn : t.nextConn = s.nextConn
  log : t.log = s.log
  finite : {p | s.times p ≠ none}.Finite

variable {s : State cfg} {t : Server.State cfg} {alloc : State cfg → ℕ} {p : ℕ} {v : Timeval}

/-! ### The pieces -/

/-- There is always an address left for `malloc`. -/
theorem Refines.unused (h : s.Refines t) (halloc : Allocates alloc) : s.Unused (alloc s) := by
  -- finitely many addresses are in use
  obtain ⟨a, ha⟩ := (((h.pending.finite.union h.busy.finite).union h.finite).insert 0).exists_notMem
  simp only [Set.mem_insert_iff, Set.mem_union, Set.mem_ofPred_eq, not_or, not_not] at ha
  exact halloc s a ⟨ha.1, ha.2.1.1, ha.2.1.2, ha.2.2⟩

theorem Refines.closeFd (h : s.Refines t) (fd : Int) : (s.closeFd fd).Refines (t.closeFd fd) :=
  { h with
    openFds := by
      show Function.update t.openFds fd none = _
      rw [h.openFds]
      rfl
    log := by
      show t.log ++ [.closed (t.openFds fd)] = _
      rw [h.log, h.openFds]
      rfl }

theorem Refines.acceptConn (h : s.Refines t) (fd : Int) :
    (s.acceptConn fd).Refines (t.acceptConn fd) :=
  { h with
    main := .accepted fd
    openFds := by
      show Function.update t.openFds fd (some t.nextConn) = _
      rw [h.openFds, h.nextConn]
      rfl
    nextConn := congrArg (· + 1) h.nextConn
    log := by
      show t.log ++ [.accepted t.nextConn] = _
      rw [h.log, h.nextConn]
      rfl }

/-- A time is written at an address that `malloc` has answered. -/
theorem Refines.writeTime (h : s.Refines t) (hp : s.times p = none) (v : Timeval) :
    (s.writeTime p v).Refines t := by
  have hkeeps : Keeps s.times (s.writeTime p v).times := keeps_update hp
  refine { h with
    pending := h.pending.mono hkeeps
    busy := h.busy.mono hkeeps
    main := h.main.mono hkeeps
    workers := fun w => (h.workers w).mono hkeeps
    finite := (h.finite.insert p).subset fun a ha => ?_ }
  -- one address more is in use
  by_cases hap : a = p
  · exact Or.inl hap
  · have hkept : (s.writeTime p v).times a = s.times a := Function.update_of_ne hap _ _
    exact Or.inr fun hnone => ha (hkept.trans hnone)

theorem times_writeTime (s : State cfg) (p : ℕ) (v : Timeval) :
    (s.writeTime p v).times p = some v :=
  Function.update_self p _ _

theorem Refines.recordArrival (h : s.Refines t) (hp : s.times p = none) (connfd : Int)
    (v : Timeval) : (s.recordArrival connfd p v).Refines (t.recordArrival connfd v) :=
  { h.writeTime hp v with
    main := .deciding (s.times_writeTime p v)
    log := by
      show t.log ++ [.recorded (t.openFds connfd) v] = _
      rw [h.log, h.openFds]
      rfl }

theorem Refines.signalWorkers (h : s.Refines t) (wake : Fin cfg.maxThreads → Bool) :
    (s.signalWorkers wake).Refines (t.signalWorkers wake) := by
  refine { h with workers := fun w => ?_ }
  -- the same workers sleep, so that the same ones wake up
  have hasleep := (h.workers w).asleep_eq
  dsimp only [State.signalWorkers, Server.State.signalWorkers]
  rw [hasleep]
  split
  · exact .waiting true
  · exact h.workers w

theorem Refines.signalMain (h : s.Refines t) : s.signalMain.Refines t.signalMain := by
  refine { h with main := ?_ }
  have hmain := h.main
  dsimp only [State.signalMain, Server.State.signalMain]
  generalize s.main = m at hmain ⊢
  generalize t.main = m' at hmain ⊢
  cases hmain with
  | accepting => exact .accepting
  | accepted connfd => exact .accepted connfd
  | deciding hv => exact .deciding hv
  | blockWait hv => exact .blockWait hv
  | bfWait hv => exact .bfWait hv

theorem Refines.setMain (h : s.Refines t) {m : MainPc} {m' : Server.MainPc}
    (hm : m.Reads s.times m') : Refines { s with main := m } { t with main := m' } :=
  { h with main := hm }

theorem Refines.dropNew (h : s.Refines t) (connfd : Int) :
    (s.dropNew connfd).Refines (t.dropNew connfd) :=
  (h.closeFd connfd).setMain .accepting

theorem Refines.setWorker (h : s.Refines t) (w : Fin cfg.maxThreads) {m : WorkerPc}
    {m' : Server.WorkerPc} (hm : m.Reads s.times m') :
    (s.setWorker w m).Refines (t.setWorker w m') := by
  refine { h with workers := fun j => ?_ }
  dsimp only [State.setWorker, Server.State.setWorker]
  by_cases hj : j = w
  · rw [hj, Function.update_self, Function.update_self]
    exact hm
  · rw [Function.update_of_ne hj, Function.update_of_ne hj]
    exact h.workers j

theorem Refines.setPending (h : s.Refines t) {q : ReqList} {Q : ReqQ}
    (hq : Reads s.times cfg.maxTasks q Q) :
    Refines { s with pendingReqs := q } { t with pendingReqs := Q } :=
  { h with pending := hq }

/-! ### The sections -/

section Sections

variable (wake : Fin cfg.maxThreads → Bool) (connfd fd : Int) (w : Fin cfg.maxThreads)
  (htasks : (cfg.maxTasks : ℤ) < 2 ^ 31) (hthreads : (cfg.maxThreads : ℤ) < 2 ^ 31)

include htasks

theorem Refines.enqueue (h : s.Refines t) (halloc : Allocates alloc) (hp : s.times p = some v) :
    ∃ s', s.enqueue alloc wake connfd p = some s' ∧ s'.Refines (t.enqueue wake connfd v) := by
  obtain ⟨h0, hpending, -, -⟩ := h.unused halloc
  obtain ⟨q, hq, hreads⟩ := h.pending.insertReq htasks ⟨h0, hpending⟩ hp connfd
  refine ⟨_, by rw [State.enqueue, hq]; rfl, ?_⟩
  apply signalWorkers
  exact { h with
    pending := hreads
    main := .accepting
    log := by rw [h.log, h.pending.isQfull] }

/-- The sum does not overflow, since the two queues together hold at most `max_tasks`. -/
theorem Refines.overloaded (h : s.Refines t)
    (htotal : t.pendingReqs.getQsize + t.busyThreads.getQsize ≤ cfg.maxTasks) :
    s.overloaded = some t.overloaded := by
  dsimp only [State.overloaded]
  -- the sum is an `int`, and the comparison is that of the model
  rw [h.pending.getQsize, h.busy.getQsize, if_pos ⟨by omega, by omega⟩]
  refine congrArg some (decide_eq_decide.mpr ?_)
  omega

theorem Refines.blockLoop (h : s.Refines t)
    (htotal : t.pendingReqs.getQsize + t.busyThreads.getQsize ≤ cfg.maxTasks)
    (halloc : Allocates alloc) (hp : s.times p = some v) :
    ∃ s', s.blockLoop alloc wake connfd p = some s' ∧ s'.Refines (t.blockLoop wake connfd v) := by
  rw [State.blockLoop, Server.State.blockLoop, h.overloaded htasks htotal]
  cases t.overloaded with
  | true => exact ⟨_, rfl, h.setMain (.blockWait hp)⟩
  | false => exact h.enqueue wake connfd htasks halloc hp

theorem Refines.bfLoop (h : s.Refines t)
    (htotal : t.pendingReqs.getQsize + t.busyThreads.getQsize ≤ cfg.maxTasks)
    (hp : s.times p = some v) :
    ∃ s', s.bfLoop connfd p = some s' ∧ s'.Refines (t.bfLoop connfd v) := by
  rw [State.bfLoop, Server.State.bfLoop, h.overloaded htasks htotal, Option.bind_eq_bind,
    Option.bind_some, h.busy.isQempty]
  split
  · exact ⟨_, rfl, h.setMain (.bfWait hp)⟩
  · exact ⟨_, rfl, h.dropNew connfd⟩

/-- The `for` loop of policy `random`: both levels drop the same requests, and the times stay. -/
theorem Refines.dropRandom (h : s.Refines t) (rand : ℕ → ℕ) (i n : ℕ) :
    ∃ s', s.dropRandom rand i n = some s' ∧ s'.times = s.times ∧
      s'.Refines (t.dropRandom rand i n) := by
  induction n generalizing i s t with
  | zero => exact ⟨s, rfl, rfl, h⟩
  | succ n ih =>
    rw [State.dropRandom, Server.State.dropRandom, h.pending.isQempty]
    split
    · exact ⟨s, rfl, rfl, h⟩
    · -- `rand() % size` is the same index in `int` and in `ℕ`
      have hindex : (rand i : ℤ) % s.pendingReqs.getQsize
          = ↑(rand i % t.pendingReqs.getQsize) := by
        rw [h.pending.getQsize]
        exact (Int.natCast_mod _ _).symm
      obtain ⟨q, hq, hreads⟩ := h.pending.removeReq htasks ↑(rand i % t.pendingReqs.getQsize)
      rw [hindex, hq]
      exact ih ((h.setPending hreads).closeFd _) (i + 1)

omit htasks in
/-- Policies `dh` and `random`: only a queue that is not empty makes room. -/
theorem Refines.orDrop (h : s.Refines t) {o : Option (State cfg)} {t' : Server.State cfg}
    (hroom : ∃ s', o = some s' ∧ s'.Refines t') :
    ∃ s', (if s.pendingReqs.getQsize ≠ 0 then o else some (s.dropNew connfd)) = some s' ∧
      s'.Refines (if t.pendingReqs.getQsize ≠ 0 then t' else t.dropNew connfd) := by
  -- both levels see the same size
  have hsize : s.pendingReqs.getQsize ≠ 0 ↔ t.pendingReqs.getQsize ≠ 0 := by
    rw [h.pending.getQsize, Ne, Int.natCast_eq_zero]
  by_cases hne : t.pendingReqs.getQsize ≠ 0
  · rw [if_pos hne, if_pos (hsize.mpr hne)]
    exact hroom
  · rw [if_neg hne, if_neg (mt hsize.mp hne)]
    exact ⟨_, rfl, h.dropNew connfd⟩

theorem Refines.mainSection (h : s.Refines t)
    (htotal : t.pendingReqs.getQsize + t.busyThreads.getQsize ≤ cfg.maxTasks)
    (halloc : Allocates alloc) (rand : ℕ → ℕ) :
    ∃ s', s.mainSection alloc rand wake connfd v = some s' ∧
      s'.Refines (t.mainSection rand wake connfd v) := by
  have hrec := h.recordArrival (h.unused halloc).2.2.2 connfd v
  have hp : (s.recordArrival connfd (alloc s) v).times (alloc s) = some v :=
    s.times_writeTime (alloc s) v
  have htotal' : (t.recordArrival connfd v).pendingReqs.getQsize +
      (t.recordArrival connfd v).busyThreads.getQsize ≤ cfg.maxTasks := htotal
  dsimp only [State.mainSection, Server.State.mainSection]
  -- everything behind the clock is about these two states
  generalize s.recordArrival connfd (alloc s) v = s₁ at hrec hp ⊢
  generalize t.recordArrival connfd v = t₁ at hrec htotal' ⊢
  rw [hrec.overloaded htasks htotal']
  cases t₁.overloaded with
  | false => exact hrec.enqueue wake connfd htasks halloc hp
  | true =>
    cases hpolicy : cfg.policy with
    | block => exact hrec.blockLoop wake connfd htasks htotal' halloc hp
    | dh =>
      obtain ⟨q, hq, hreads⟩ := hrec.pending.removeFirstReq htasks
      -- the oldest request is taken out and closed, and then there is room
      have hclosed := (hrec.setPending hreads).closeFd t₁.pendingReqs.removeFirstReq.1
      rw [hq]
      exact hrec.orDrop connfd (hclosed.enqueue wake connfd htasks halloc hp)
    | dt => exact ⟨_, rfl, hrec.dropNew connfd⟩
    | random =>
      -- half of the requests, rounded up, is the same number
      have hhalf : ((s₁.pendingReqs.getQsize + 1) / 2).toNat
          = (t₁.pendingReqs.getQsize + 1) / 2 := by
        rw [hrec.pending.getQsize]
        omega
      obtain ⟨s₂, hs₂, htimes, hdropped⟩ :=
        hrec.dropRandom htasks rand 0 ((t₁.pendingReqs.getQsize + 1) / 2)
      rw [hhalf, hs₂]
      exact hrec.orDrop connfd (hdropped.enqueue wake connfd htasks halloc (htimes ▸ hp))
    | bf => exact hrec.bfLoop connfd htasks htotal' hp

include hthreads in
theorem Refines.takeSection (h : s.Refines t) (halloc : Allocates alloc) (tt1 : Timeval) :
    ∃ s', s.takeSection alloc w tt1 = some s' ∧ s'.Refines (t.takeSection w tt1) := by
  rw [State.takeSection, Server.State.takeSection, h.pending.getQsize]
  by_cases hempty : t.pendingReqs.getQsize = 0
  · rw [if_pos hempty, if_pos (Int.natCast_eq_zero.mpr hempty)]
    exact ⟨_, rfl, h.setWorker w (.waiting false)⟩
  · rw [if_neg hempty, if_neg (mt Int.natCast_eq_zero.mp hempty)]
    obtain ⟨head, arrival, hhead, harrival, hfirst⟩ := h.pending.getFirstReqTime hempty
    obtain ⟨q, hq, hreads⟩ := h.pending.removeFirstReq htasks
    have htaken := h.setPending hreads
    -- the time of the worker, and then the node in `busy_threads`
    have hunused := (htaken.unused halloc).2.2.2
    have hwritten := htaken.writeTime hunused tt1
    obtain ⟨h0, -, hbusy, -⟩ := hwritten.unused halloc
    obtain ⟨b, hb, hreads'⟩ := hwritten.busy.insertReq hthreads ⟨h0, hbusy⟩
      (State.times_writeTime _ _ tt1) t.pendingReqs.removeFirstReq.1
    -- the time of the request is still where the head pointed
    have hhead' : (State.writeTime (alloc { s with pendingReqs := q }) tt1
        { s with pendingReqs := q }).times head = some arrival :=
      keeps_update hunused _ _ harrival
    rw [hhead, hq, hfirst]
    refine ⟨_, by dsimp only [Option.bind_eq_bind, Option.bind_some]; rw [hb]; rfl, ?_⟩
    refine Refines.setWorker ?_ w (.handling hhead')
    exact { hwritten with
      busy := hreads'
      log := by rw [h.log, h.openFds, ← h.busy.isQfull]; rfl }

omit htasks in
include hthreads in
theorem Refines.finishSection (h : s.Refines t) :
    ∃ s', s.finishSection w fd = some s' ∧ s'.Refines (t.finishSection w fd) := by
  obtain ⟨b, hb, hreads⟩ := h.busy.removeReq hthreads (t.busyThreads.findFileId fd)
  refine ⟨_, by rw [State.finishSection, h.busy.findFileId fd, Option.bind_eq_bind,
    Option.bind_some, hb]; rfl, ?_⟩
  apply signalMain
  apply setWorker _ _ .idle
  exact { h with busy := hreads }

omit htasks in
theorem Refines.handleReq (h : s.Refines t) (hp : s.times p = some v) :
    ∃ s', s.handleReq w fd p = some s' ∧ s'.Refines (t.handleReq w fd (some v)) := by
  refine ⟨_, by rw [State.handleReq, hp]; rfl, ?_⟩
  apply setWorker _ _ (.handled fd)
  exact { h with log := by rw [h.log, h.openFds] }

omit htasks in
theorem Refines.closeReq (h : s.Refines t) : (s.closeReq w fd).Refines (t.closeReq w fd) :=
  (h.closeFd fd).setWorker w (.closed fd)

end Sections

end State

/-! ### Steps -/

section Steps

variable {cfg : Config} {s : State cfg} {t t' : Server.State cfg} {l : Thread cfg}
  {o : Option (State cfg)}

theorem State.Refines.validWake (h : s.Refines t) {wake : Fin cfg.maxThreads → Bool} :
    ValidWake s.workers wake ↔ Server.ValidWake t.workers wake := by
  have hasleep : ∀ w, (s.workers w).asleep = (t.workers w).asleep :=
    fun w => (h.workers w).asleep_eq
  simp only [ValidWake, Server.ValidWake, hasleep]

variable (htasks : (cfg.maxTasks : ℤ) < 2 ^ 31) (hthreads : (cfg.maxThreads : ℤ) < 2 ^ 31)

include htasks hthreads

/-- **One step on the heap**: it has an outcome, and the model makes the same step. -/
theorem State.Refines.step (h : s.Refines t) (hreach : (Server.server cfg).Reachable t)
    (hst : (server cfg).step (some s) l o) :
    ∃ s', o = some s' ∧ ∃ t', (Server.server cfg).step t l t' ∧ s'.Refines t' := by
  have htotal := (AdmissionInv.of_reachable hreach).total_le
  have hmain := h.main
  generalize hm : t.main = m at hmain
  have hworkers : ∀ w, ∃ m, t.workers w = m ∧ (s.workers w).Reads s.times m :=
    fun w => ⟨_, rfl, h.workers w⟩
  cases hst with
  | accept _ fd hpc hfd hfree =>
    rw [hpc] at hmain
    cases hmain
    exact ⟨_, rfl, _, .accept t fd hm hfd (h.openFds ▸ hfree), h.acceptConn fd⟩
  | mainLock _ alloc rand wake connfd time hpc halloc hwake =>
    rw [hpc] at hmain
    cases hmain
    -- the section has an outcome, since no pointer is null and no sum overflows
    obtain ⟨s', hs', hrefines⟩ := h.mainSection wake connfd htasks htotal halloc rand
    exact ⟨s', hs', _, .mainLock t rand wake connfd time hm (h.validWake.mp hwake), hrefines⟩
  | blockWake _ alloc wake connfd p hpc halloc hwake =>
    rw [hpc] at hmain
    cases hmain with
    | blockWait hp =>
      obtain ⟨s', hs', hrefines⟩ := h.blockLoop wake connfd htasks htotal halloc hp
      exact ⟨s', hs', _, .blockWake t wake connfd _ hm (h.validWake.mp hwake), hrefines⟩
  | bfWake _ connfd p hpc =>
    rw [hpc] at hmain
    cases hmain with
    | bfWait hp =>
      obtain ⟨s', hs', hrefines⟩ := h.bfLoop connfd htasks htotal hp
      exact ⟨s', hs', _, .bfWake t connfd _ hm, hrefines⟩
  | mainSpurious _ hasleep =>
    rw [h.main.asleep_eq] at hasleep
    exact ⟨_, rfl, _, .mainSpurious t hasleep, h.signalMain⟩
  | take _ alloc w tt1 hpc halloc =>
    obtain ⟨s', hs', hrefines⟩ := h.takeSection w htasks hthreads halloc tt1
    -- the worker of the model is where the worker on the heap is
    have hready : t.workers w = .idle ∨ t.workers w = .waiting true := by
      obtain ⟨m, hw, hreads⟩ := hworkers w
      obtain hpc | hpc := hpc
      · rw [hpc] at hreads
        cases hreads
        exact Or.inl hw
      · rw [hpc] at hreads
        cases hreads
        exact Or.inr hw
    exact ⟨s', hs', _, .take t w tt1 hready, hrefines⟩
  | workerSpurious _ w hpc =>
    obtain ⟨m, hw, hreads⟩ := hworkers w
    rw [hpc] at hreads
    cases hreads
    exact ⟨_, rfl, _, .workerSpurious t w hw, h.setWorker w (.waiting true)⟩
  | handle _ w fd p hpc =>
    obtain ⟨m, hw, hreads⟩ := hworkers w
    rw [hpc] at hreads
    cases hreads with
    | handling hv =>
      obtain ⟨s', hs', hrefines⟩ := h.handleReq fd w hv
      exact ⟨s', hs', _, .handle t w fd _ hw, hrefines⟩
  | close _ w fd hpc =>
    obtain ⟨m, hw, hreads⟩ := hworkers w
    rw [hpc] at hreads
    cases hreads
    exact ⟨_, rfl, _, .close t w fd hw, h.closeReq fd w⟩
  | finish _ w fd hpc =>
    obtain ⟨m, hw, hreads⟩ := hworkers w
    rw [hpc] at hreads
    cases hreads
    obtain ⟨s', hs', hrefines⟩ := h.finishSection fd w hthreads
    exact ⟨s', hs', _, .finish t w fd hw, hrefines⟩

end Steps

end OnHeap
end Server
end OsHomework
