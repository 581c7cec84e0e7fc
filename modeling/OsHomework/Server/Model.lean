import OsHomework.Lib.Transition
import OsHomework.Server.ReqQ
import Mathlib.Data.Fintype.Card

/-!
# The web server: main thread, workers and their critical sections

`server.c` as a transition system. One main thread runs the accept loop, and
`max_threads` workers run `handle_reqs`. Every section under the mutex `m` is one
step, `pthread_cond_wait` ends a step, and the code between two sections is a
step of its own where another thread can observe it (`accept`, `requestHandle`,
`close`).

Connections and descriptors are kept apart. A connection is numbered by the
order of its `accept`. A descriptor is a number, and `State.openFds` is the
kernel's table from the numbers now open to connections. `accept` may return any
number that is not open, also one a worker has closed and not yet taken out of
`busy_threads`; `close` acts on the connection its number refers to at that
moment.

The log records what the threads do to connections. An event names the
connection its descriptor refers to, and `none` when the number is not open.
-/

namespace OsHomework
namespace Server

/-- The overload policies `main` compares its argument with. -/
inductive Policy
  | block
  | dh
  | dt
  | random
  | bf
  deriving DecidableEq, Repr

/-- The arguments of the server. -/
structure Config where
  policy : Policy
  maxThreads : ℕ
  maxTasks : ℕ
  maxThreads_pos : 1 ≤ maxThreads
  maxTasks_pos : 1 ≤ maxTasks

/-- A connection, by the order in which it was accepted. -/
abbrev Conn := ℕ

/-- Where the main thread stands. The flag of a wait tells whether it has been
woken and only has to get the mutex back. -/
inductive MainPc
  /-- Before `Accept`. -/
  | accepting
  /-- `Accept` has returned and the mutex is not yet taken. -/
  | accepted (connfd : Int)
  /-- Inside the section, after `gettimeofday`. -/
  | deciding (connfd : Int) (time : Timeval)
  /-- In `cond_wait(no_empty_threads)` of the `block` loop. -/
  | blockWait (connfd : Int) (time : Timeval) (signalled : Bool)
  /-- In `cond_wait(no_empty_threads)` of the `bf` loop. -/
  | bfWait (connfd : Int) (time : Timeval) (signalled : Bool)
  deriving DecidableEq, Repr

/-- Where a worker stands. -/
inductive WorkerPc
  /-- Before the mutex is taken at the top of the loop. -/
  | idle
  /-- In `cond_wait(no_waiting_reqs)`. -/
  | waiting (signalled : Bool)
  /-- After the section that took the request, before `requestHandle`. -/
  | handling (fd : Int) (arrival : Option Timeval)
  /-- After `requestHandle`, before `close`. -/
  | handled (fd : Int)
  /-- After `close`, before the section that removes the entry. -/
  | closed (fd : Int)
  deriving DecidableEq, Repr

/-- The descriptor the main thread is responsible for. -/
def MainPc.held : MainPc → Option Int
  | .accepting => none
  | .accepted fd | .deciding fd _ | .blockWait fd _ _ | .bfWait fd _ _ => some fd

/-- Asleep in one of its two waits. -/
def MainPc.asleep : MainPc → Bool
  | .blockWait _ _ false | .bfWait _ _ false => true
  | _ => false

/-- The descriptor a worker has taken and not yet closed. -/
def WorkerPc.held : WorkerPc → Option Int
  | .handling fd _ | .handled fd => some fd
  | _ => none

/-- The descriptor a worker has put into `busy_threads` and not yet removed. -/
def WorkerPc.busyFd : WorkerPc → Option Int
  | .handling fd _ | .handled fd | .closed fd => some fd
  | _ => none

/-- Asleep in `cond_wait(no_waiting_reqs)`. -/
def WorkerPc.asleep : WorkerPc → Bool
  | .waiting false => true
  | _ => false

/-- What the log records. -/
inductive Event
  | accepted (c : Conn)
  /-- The main thread has read the clock for this connection. -/
  | recorded (c : Option Conn) (time : Timeval)
  | taken (c : Option Conn)
  /-- `requestHandle` has been called with this arrival time. -/
  | handled (c : Option Conn) (arrival : Option Timeval)
  | closed (c : Option Conn)
  /-- `insertReq` has found its queue full and returned. -/
  | queueFull
  deriving DecidableEq, Repr

/-- A state of the server. -/
structure State (cfg : Config) where
  pendingReqs : ReqQ
  busyThreads : ReqQ
  main : MainPc
  workers : Fin cfg.maxThreads → WorkerPc
  openFds : Int → Option Conn
  nextConn : Conn
  log : List Event

namespace State

variable {cfg : Config}

/-- The server when `main` reaches its accept loop. -/
def initial (cfg : Config) : State cfg where
  pendingReqs := ReqQ.createReqQueue cfg.maxTasks
  busyThreads := ReqQ.createReqQueue cfg.maxThreads
  main := .accepting
  workers := fun _ => .idle
  openFds := fun _ => none
  nextConn := 0
  log := []

/-! ### The pieces the sections are made of -/

/-- `close(fd)`. -/
def closeFd (fd : Int) (s : State cfg) : State cfg :=
  { s with
    openFds := Function.update s.openFds fd none
    log := s.log ++ [.closed (s.openFds fd)] }

/-- `connfd = Accept(...)` returns `fd`. -/
def acceptConn (fd : Int) (s : State cfg) : State cfg :=
  { s with
    main := .accepted fd
    -- a number may have been used before; the connection is new
    openFds := Function.update s.openFds fd (some s.nextConn)
    nextConn := s.nextConn + 1
    log := s.log ++ [.accepted s.nextConn] }

/-- `gettimeofday(time, NULL)` at the start of the main thread's section. -/
def recordArrival (connfd : Int) (time : Timeval) (s : State cfg) : State cfg :=
  { s with
    main := .deciding connfd time
    log := s.log ++ [.recorded (s.openFds connfd) time] }

/-- `pthread_cond_signal(&no_waiting_reqs)`, waking the sleepers in `wake`. -/
def signalWorkers (wake : Fin cfg.maxThreads → Bool) (s : State cfg) : State cfg :=
  { s with
    workers := fun w =>
      if (s.workers w).asleep && wake w then .waiting true else s.workers w }

/-- `pthread_cond_signal(&no_empty_threads)`; the main thread is the only one
that waits there. -/
def signalMain (s : State cfg) : State cfg :=
  { s with
    main :=
      match s.main with
      | .blockWait fd t _ => .blockWait fd t true
      | .bfWait fd t _ => .bfWait fd t true
      | pc => pc }

/-- Close the new connection, unlock and `continue`. -/
def dropNew (connfd : Int) (s : State cfg) : State cfg :=
  { s.closeFd connfd with main := .accepting }

/-- Take the request at `index` out of `pending_reqs` and close it. -/
def dropPending (index : Int) (s : State cfg) : State cfg :=
  closeFd (s.pendingReqs.removeReq index).1
    { s with pendingReqs := (s.pendingReqs.removeReq index).2 }

/-- The end of the accept loop's body: `insertReq`, `cond_signal`, unlock. -/
def enqueue (wake : Fin cfg.maxThreads → Bool) (connfd : Int) (time : Timeval)
    (s : State cfg) : State cfg :=
  signalWorkers wake
    { s with
      pendingReqs := s.pendingReqs.insertReq connfd time
      main := .accepting
      -- a full queue makes `insertReq` return without a word
      log := s.log ++ (if s.pendingReqs.isQfull then [.queueFull] else []) }

def setWorker (w : Fin cfg.maxThreads) (pc : WorkerPc) (s : State cfg) : State cfg :=
  { s with workers := Function.update s.workers w pc }

/-! ### The sections of the main thread -/

/-- `getQsize(pending_reqs) + getQsize(busy_threads) >= max_tasks`. -/
def overloaded (s : State cfg) : Bool :=
  decide (s.pendingReqs.getQsize + s.busyThreads.getQsize ≥ cfg.maxTasks)

/-- The `while` loop of policy `block`, up to its next wait or past it. -/
def blockLoop (wake : Fin cfg.maxThreads → Bool) (connfd : Int) (time : Timeval)
    (s : State cfg) : State cfg :=
  if s.overloaded then { s with main := .blockWait connfd time false }
  else s.enqueue wake connfd time

/-- The `while` loop of policy `bf`, up to its next wait or past it. -/
def bfLoop (connfd : Int) (time : Timeval) (s : State cfg) : State cfg :=
  -- the new connection is dropped as soon as there is room or no worker is busy
  if s.overloaded && !s.busyThreads.isQempty then { s with main := .bfWait connfd time false }
  else s.dropNew connfd

/-- The `for` loop of policy `random`: `n` more rounds, the next one drawing
`rand i`. -/
def dropRandom (rand : ℕ → ℕ) : ℕ → ℕ → State cfg → State cfg
  | _, 0, s => s
  | i, n + 1, s =>
    if s.pendingReqs.isQempty then s
    else dropRandom rand (i + 1) n (s.dropPending ↑(rand i % s.pendingReqs.getQsize))

/-- The main thread's section, from `pthread_mutex_lock` to the unlock or the
first wait. `ceil(n * 0.5)` is `(n + 1) / 2`. -/
def mainSection (rand : ℕ → ℕ) (wake : Fin cfg.maxThreads → Bool) (connfd : Int) (time : Timeval)
    (s : State cfg) : State cfg :=
  let s := s.recordArrival connfd time
  if s.overloaded then
    match cfg.policy with
    | .block => s.blockLoop wake connfd time
    | .dh =>
      -- the oldest waiting request makes room
      if s.pendingReqs.getQsize ≠ 0 then
        enqueue wake connfd time
          (closeFd s.pendingReqs.removeFirstReq.1
            { s with pendingReqs := s.pendingReqs.removeFirstReq.2 })
      else s.dropNew connfd
    | .dt => s.dropNew connfd
    | .random =>
      -- half of the waiting requests, rounded up, make room
      if s.pendingReqs.getQsize ≠ 0 then
        enqueue wake connfd time (s.dropRandom rand 0 ((s.pendingReqs.getQsize + 1) / 2))
      else s.dropNew connfd
    | .bf => s.bfLoop connfd time
  else s.enqueue wake connfd time

/-! ### The sections of a worker -/

/-- The section at the top of `handle_reqs`, up to its next wait or past it:
`tt1` is the time written into the entry of `busy_threads`. -/
def takeSection (w : Fin cfg.maxThreads) (tt1 : Timeval) (s : State cfg) : State cfg :=
  if s.pendingReqs.getQsize = 0 then s.setWorker w (.waiting false)
  else
    -- the arrival time is read from the head before it is removed
    let fd := s.pendingReqs.removeFirstReq.1
    setWorker w (.handling fd s.pendingReqs.getFirstReqTime)
      { s with
        pendingReqs := s.pendingReqs.removeFirstReq.2
        busyThreads := s.busyThreads.insertReq fd tt1
        log := s.log ++ [.taken (s.openFds fd)] ++
          (if s.busyThreads.isQfull then [.queueFull] else []) }

/-- `requestHandle(fd, head_insertion_time, ...)`. -/
def handleReq (w : Fin cfg.maxThreads) (fd : Int) (arrival : Option Timeval) (s : State cfg) :
    State cfg :=
  setWorker w (.handled fd) { s with log := s.log ++ [.handled (s.openFds fd) arrival] }

/-- `close(fd)` of a worker. -/
def closeReq (w : Fin cfg.maxThreads) (fd : Int) (s : State cfg) : State cfg :=
  setWorker w (.closed fd) (s.closeFd fd)

/-- The section at the end of `handle_reqs`. -/
def finishSection (w : Fin cfg.maxThreads) (fd : Int) (s : State cfg) : State cfg :=
  signalMain
    (setWorker w .idle
      -- the entry is found by the number, which `close` has already given back
      { s with busyThreads := (s.busyThreads.removeReq (s.busyThreads.findFileId fd)).2 })

end State

/-! ### The step relation -/

/-- A signal wakes at least one sleeper if there is one. -/
def ValidWake {n : ℕ} (workers : Fin n → WorkerPc) (wake : Fin n → Bool) : Prop :=
  (∃ w, (workers w).asleep) → ∃ w, (workers w).asleep ∧ wake w

/-- The thread that takes a step. -/
inductive Thread (cfg : Config)
  | main
  | worker (w : Fin cfg.maxThreads)

/-- The steps of the server. -/
inductive Step {cfg : Config} : State cfg → Thread cfg → State cfg → Prop
  | accept (s : State cfg) (fd : Int) :
      s.main = .accepting → 0 ≤ fd → s.openFds fd = none → Step s .main (s.acceptConn fd)
  | mainLock (s : State cfg) (rand : ℕ → ℕ) (wake : Fin cfg.maxThreads → Bool) (connfd : Int)
      (time : Timeval) :
      s.main = .accepted connfd → ValidWake s.workers wake →
      Step s .main (s.mainSection rand wake connfd time)
  | blockWake (s : State cfg) (wake : Fin cfg.maxThreads → Bool) (connfd : Int)
      (time : Timeval) :
      s.main = .blockWait connfd time true → ValidWake s.workers wake →
      Step s .main (s.blockLoop wake connfd time)
  | bfWake (s : State cfg) (connfd : Int) (time : Timeval) :
      s.main = .bfWait connfd time true → Step s .main (s.bfLoop connfd time)
  | mainSpurious (s : State cfg) : s.main.asleep → Step s .main s.signalMain
  | take (s : State cfg) (w : Fin cfg.maxThreads) (tt1 : Timeval) :
      s.workers w = .idle ∨ s.workers w = .waiting true →
      Step s (.worker w) (s.takeSection w tt1)
  | workerSpurious (s : State cfg) (w : Fin cfg.maxThreads) :
      s.workers w = .waiting false → Step s (.worker w) (s.setWorker w (.waiting true))
  | handle (s : State cfg) (w : Fin cfg.maxThreads) (fd : Int) (arrival : Option Timeval) :
      s.workers w = .handling fd arrival → Step s (.worker w) (s.handleReq w fd arrival)
  | close (s : State cfg) (w : Fin cfg.maxThreads) (fd : Int) :
      s.workers w = .handled fd → Step s (.worker w) (s.closeReq w fd)
  | finish (s : State cfg) (w : Fin cfg.maxThreads) (fd : Int) :
      s.workers w = .closed fd → Step s (.worker w) (s.finishSection w fd)

/-- The server as a transition system. -/
def server (cfg : Config) : System (State cfg) (Thread cfg) where
  init s := s = State.initial cfg
  step := Step

end Server
end OsHomework
