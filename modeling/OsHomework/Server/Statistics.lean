import OsHomework.Server.History
import OsHomework.Server.Response

/-!
# The statistics of the workers

`main` sets up three counters for each worker, and `requestHandle` counts in them and reports them
in every reply. Here the server of `Model` runs with the counters and with what `requestHandle`
really writes, on any files and on any bytes from the client. A call is three steps, between which
the other threads run: it counts the request (`CountStep.enter`), reads it and counts it as one of a
file or a program (`CountStep.serve`), and returns when the answer is written (`CountStep.handle`).
A worker whose client sends nothing stays behind the first step, and one whose client reads nothing
behind the second. Leaving the counters out gives back a run of the server (`counting_reachable`),
so that everything about connections holds here as well.

The counters are shared by all workers, and no lock is held when they are used. Each worker has an
entry of its own, so no count is lost: in every state of a run the counters are the number of
answers, and one more for a worker that is in a call (`counters_exact`), and every answer carries
the number of its worker, its number among the answers of that worker, and the time at which its
connection was accepted (`answer_statistics`).
-/

namespace OsHomework
namespace Server
namespace Reply

variable {cfg : Config}

/-- `timersub(a, b, res)`. -/
def timersub (a b : Timeval) : Timeval :=
  let sec := a.tvSec - b.tvSec
  let usec := a.tvUsec - b.tvUsec
  if usec < 0 then ⟨sec - 1, usec + 1000000⟩ else ⟨sec, usec⟩

/-- What a worker has written to a connection. -/
structure Answer (cfg : Config) where
  conn : Option Conn
  worker : Fin cfg.maxThreads
  chunks : List (List UInt8)

/-- How far a worker is in a call of `requestHandle`. -/
inductive Call where
  | reading (job : Job)
  | writing (job : Job) (chunks : List (List UInt8))

/-- The arguments of the call. -/
def Call.job : Call → Job
  | .reading job => job
  | .writing job _ => job

/-- The server with the counters, the calls in progress and the answers so far. -/
structure CountState (cfg : Config) where
  server : State cfg
  counters : Counters
  calls : Fin cfg.maxThreads → Option Call
  answers : List (Answer cfg)

/-- The steps of the server, with what `requestHandle` does. -/
inductive CountStep : CountState cfg → Thread cfg → CountState cfg → Prop
  | other (s : CountState cfg) (l : Thread cfg) (t : State cfg) :
      Step s.server l t →
      (∀ w fd arrival, l = .worker w → s.server.workers w ≠ .handling fd arrival) →
      CountStep s l { s with server := t }
  | enter (s : CountState cfg) (w : Fin cfg.maxThreads) (fd : Int) (arrival cur : Timeval) :
      s.server.workers w = .handling fd (some arrival) → s.calls w = none →
      CountStep s (.worker w) { s with
        counters := s.counters.countTotal w
        calls := Function.update s.calls w
          (some (.reading ⟨arrival, timersub cur arrival, w⟩)) }
  | serve (s : CountState cfg) (w : Fin cfg.maxThreads) (job : Job) (env : Env) (fuel : ℕ)
      (r r' : Rio) (chunks : List (List UInt8)) (cnt : Counters) :
      s.calls w = some (.reading job) →
      answerRequest env fuel r job s.counters = .returned (chunks, cnt) r' →
      CountStep s (.worker w) { s with
        counters := cnt
        calls := Function.update s.calls w (some (.writing job chunks)) }
  | handle (s : CountState cfg) (w : Fin cfg.maxThreads) (fd : Int) (job : Job)
      (chunks : List (List UInt8)) :
      s.server.workers w = .handling fd (some job.pickUp) → s.calls w = some (.writing job chunks) →
      CountStep s (.worker w) ⟨s.server.handleReq w fd (some job.pickUp), s.counters,
        Function.update s.calls w none, s.answers ++ [⟨s.server.openFds fd, w, chunks⟩]⟩

/-- The server with its counters as a transition system. -/
def counting (cfg : Config) : System (CountState cfg) (Thread cfg) where
  init s := s = ⟨State.initial cfg, .zero, fun _ => none, []⟩
  step := CountStep

/-- **Without the counters** a run is a run of the server. -/
theorem counting_reachable {s : CountState cfg} (h : (counting cfg).Reachable s) :
    (server cfg).Reachable s.server := by
  have hinit : ∀ s, (counting cfg).init s → (server cfg).Reachable s.server := by
    rintro _ rfl
    exact System.Reachable.of_init rfl
  have hstep : ∀ s l t, (server cfg).Reachable s.server → (counting cfg).step s l t →
      (server cfg).Reachable t.server := by
    intro s l t hs hst
    cases hst with
    | other l t hst _ => exact hs.tail hst
    -- inside a call the server stands still
    | enter _ _ _ _ _ _ => exact hs
    | serve _ _ _ _ _ _ _ _ _ _ => exact hs
    | handle w fd job chunks hw _ => exact hs.tail (Step.handle _ w fd _ hw)
  have hserver := h.invariant hinit hstep
  exact hserver

/-! ### What one call counts -/

/-- The reply says that the request was served. -/
def isOk (chunks : List (List UInt8)) : Bool :=
  (line "HTTP/1.0 200 OK" []).isPrefixOf chunks.flatten

/-- What a call of `requestHandle` does to the counters after it has counted the request, and what
it reports of them. -/
structure Counts (job : Job) (cnt cnt' : Counters) (chunks : List (List UInt8)) : Prop where
  total : cnt'.total = cnt.total
  served : (fun i => cnt'.static i + cnt'.dynamic i) =
    Function.update (fun i => cnt.static i + cnt.dynamic i) job.index
      (cnt.static job.index + cnt.dynamic job.index + if isOk chunks then 1 else 0)
  reported : (statLines job cnt').flatten <:+: chunks.flatten

theorem isOk_iff {chunks : List (List UInt8)} :
    isOk chunks = true ↔ line "HTTP/1.0 200 OK" [] <+: chunks.flatten :=
  List.isPrefixOf_iff_prefix

section Calls

variable {env : Env} {fuel : ℕ} {r r' : Rio} {job : Job} {cnt cnt' : Counters}
  {chunks : List (List UInt8)}

/-- An error is not taken for a reply to a request that was served. -/
theorem isOk_requestError {cause : List UInt8} {errnum shortmsg longmsg : String}
    (htexts : errorTexts errnum shortmsg = true)
    (h : requestError cause errnum shortmsg longmsg job cnt = some chunks) :
    isOk chunks = false := by
  simp only [errorTexts, Bool.and_eq_true] at htexts
  obtain ⟨-, hfirst⟩ := htexts
  rw [requestError] at h
  split_ifs at h
  cases h
  cases hnum : ascii errnum with
  | nil =>
    rw [hnum] at hfirst
    cases hfirst
  | cons c cs =>
    rw [hnum] at hfirst
    have hc : c ≠ 50 := by simpa using hfirst
    refine Bool.eq_false_of_not_eq_true fun hok => hc ?_
    -- the two texts agree up to the number
    have hprefix := isOk_iff.mp hok
    have hcut : line "HTTP/1.0 200 OK" [] = ascii "HTTP/1.0 " ++ 50 :: (ascii "00 OK" ++ crlf) := by
      decide
    rw [hcut, line, List.flatten_cons, List.append_assoc, List.append_assoc,
      List.prefix_append_right_inj] at hprefix
    exact (List.cons_prefix_cons.mp hprefix).1.symm

/-- The statistics end the head of a reply. -/
theorem reported_of_mem (h : (statLines job cnt).flatten ++ crlf ∈ chunks) :
    (statLines job cnt).flatten <:+: chunks.flatten :=
  (List.prefix_append _ crlf).isInfix.trans (List.infix_of_mem_flatten h)

theorem isOk_cons (rest : List UInt8) (chunks : List (List UInt8)) :
    isOk ((line "HTTP/1.0 200 OK" [] ++ rest) :: chunks) = true := by
  rw [isOk_iff, List.flatten_cons, List.append_assoc]
  exact List.prefix_append _ _

theorem reported_requestError {cause : List UInt8} {errnum shortmsg longmsg : String}
    (h : requestError cause errnum shortmsg longmsg job cnt = some chunks) :
    (statLines job cnt).flatten <:+: chunks.flatten := by
  rw [requestError] at h
  split_ifs at h
  cases h
  apply reported_of_mem
  simp only [List.mem_cons, true_or, or_true]

theorem reported_requestServeStatic {filename : List UInt8} {file : File}
    (h : requestServeStatic filename file job cnt = some chunks) :
    (statLines job cnt).flatten <:+: chunks.flatten ∧ isOk chunks = true := by
  rw [requestServeStatic] at h
  split_ifs at h
  cases h
  constructor
  · apply reported_of_mem
    simp only [List.mem_cons, true_or, or_true]
  · simp only [List.append_assoc]
    exact isOk_cons _ _

theorem reported_requestServeDynamic (filename args : List UInt8) :
    (statLines job cnt).flatten <:+: (requestServeDynamic env filename args job cnt).flatten ∧
      isOk (requestServeDynamic env filename args job cnt) = true := by
  rw [requestServeDynamic]
  constructor
  · -- the statistics are a chunk of their own here
    refine List.infix_of_mem_flatten ?_
    simp only [List.mem_cons, true_or, or_true]
  · exact isOk_cons _ _

/-- Counting in one of the two counters adds one to their sum, and to no other worker's. -/
theorem served_countStatic (cnt : Counters) (i : ℕ) :
    (fun j => (cnt.countStatic i).static j + (cnt.countStatic i).dynamic j) =
      Function.update (fun j => cnt.static j + cnt.dynamic j) i
        (cnt.static i + cnt.dynamic i + 1) := by
  funext j
  -- the counter of `i` is one more, and every other one is as it was
  show Function.update cnt.static i (cnt.static i + 1) j + cnt.dynamic j = _
  by_cases hj : j = i
  · rw [hj, Function.update_self, Function.update_self, Int32.add_assoc, Int32.add_comm 1,
      ← Int32.add_assoc]
  · rw [Function.update_of_ne hj, Function.update_of_ne hj]

theorem served_countDynamic (cnt : Counters) (i : ℕ) :
    (fun j => (cnt.countDynamic i).static j + (cnt.countDynamic i).dynamic j) =
      Function.update (fun j => cnt.static j + cnt.dynamic j) i
        (cnt.static i + cnt.dynamic i + 1) := by
  funext j
  show cnt.static j + Function.update cnt.dynamic i (cnt.dynamic i + 1) j = _
  by_cases hj : j = i
  · rw [hj, Function.update_self, Function.update_self, Int32.add_assoc]
  · rw [Function.update_of_ne hj, Function.update_of_ne hj]

/-- **One call**: behind the count of the request `requestHandle` counts it once more if it is
served, leaves the counters of the other workers alone, and reports the counters as they are
then. -/
theorem answerRequest_counts (h : answerRequest env fuel r job cnt = .returned (chunks, cnt') r') :
    Counts job cnt cnt' chunks := by
  obtain ⟨rfl, cause, errnum, shortmsg, longmsg, htexts, heq⟩ | ⟨rfl, filename, file, -, heq⟩ |
    ⟨rfl, p, -, rfl⟩ := answerRequest_cases h
  · refine ⟨rfl, ?_, reported_requestError heq⟩
    -- an error counts in neither of the two
    rw [isOk_requestError htexts heq, if_neg Bool.false_ne_true, Int32.add_zero]
    exact (Function.update_eq_self job.index fun i => cnt'.static i + cnt'.dynamic i).symm
  · obtain ⟨hreported, hok⟩ := reported_requestServeStatic heq
    refine ⟨rfl, ?_, hreported⟩
    rw [hok, if_pos rfl]
    exact served_countStatic _ _
  · obtain ⟨hreported, hok⟩ := reported_requestServeDynamic p.filename (p.cgiargs.getD [])
    refine ⟨rfl, ?_, hreported⟩
    rw [hok, if_pos rfl]
    exact served_countDynamic _ _

end Calls

/-! ### The steps that call nothing -/

/-- The log has grown by events other than a call of `requestHandle`. -/
def Quietly (s t : State cfg) : Prop :=
  ∃ es, t.log = s.log ++ es ∧ handledSeq es = []

namespace Quietly

variable {s t u : State cfg}

theorem of_eq (h : t.log = s.log) : Quietly s t := ⟨[], by rw [h, List.append_nil], rfl⟩

theorem trans (h : Quietly s t) (h' : Quietly t u) : Quietly s u := by
  obtain ⟨es, hlog, hes⟩ := h
  obtain ⟨es', hlog', hes'⟩ := h'
  refine ⟨es ++ es', by rw [hlog', hlog, List.append_assoc], ?_⟩
  rw [handledSeq, List.filterMap_append]
  exact List.append_eq_nil_iff.mpr ⟨hes, hes'⟩

theorem closeFd (fd : Int) : Quietly s (s.closeFd fd) := ⟨_, rfl, rfl⟩

theorem enqueue (wake : Fin cfg.maxThreads → Bool) (fd : Int) (time : Timeval) :
    Quietly s (s.enqueue wake fd time) := by
  refine ⟨_, rfl, ?_⟩
  split_ifs <;> rfl

theorem dropNew (fd : Int) : Quietly s (s.dropNew fd) := ⟨_, rfl, rfl⟩

theorem dropPending (i : Int) : Quietly s (s.dropPending i) := ⟨_, rfl, rfl⟩

theorem dropRandom (rand : ℕ → ℕ) (i n : ℕ) : Quietly s (s.dropRandom rand i n) := by
  induction n generalizing i s with
  | zero => exact of_eq rfl
  | succ n ih =>
    rw [State.dropRandom]
    split_ifs
    · exact of_eq rfl
    · exact (dropPending _).trans (ih (i + 1))

theorem blockLoop (wake : Fin cfg.maxThreads → Bool) (fd : Int) (time : Timeval) :
    Quietly s (s.blockLoop wake fd time) := by
  rw [State.blockLoop]
  split_ifs
  · exact of_eq rfl
  · exact enqueue wake fd time

theorem bfLoop (fd : Int) (time : Timeval) : Quietly s (s.bfLoop fd time) := by
  rw [State.bfLoop]
  split_ifs
  · exact of_eq rfl
  · exact dropNew fd

theorem mainSection (rand : ℕ → ℕ) (wake : Fin cfg.maxThreads → Bool) (fd : Int) (time : Timeval) :
    Quietly s (s.mainSection rand wake fd time) := by
  -- the clock is read first, and whatever the policy does comes after that
  have hrecord : Quietly s (s.recordArrival fd time) := ⟨_, rfl, rfl⟩
  refine hrecord.trans ?_
  unfold State.mainSection
  dsimp only
  generalize s.recordArrival fd time = s'
  split
  · split
    · exact blockLoop wake fd time
    · split
      · exact Quietly.trans ⟨_, rfl, rfl⟩ (enqueue wake fd time)
      · exact dropNew fd
    · exact dropNew fd
    · split
      · exact (dropRandom rand 0 _).trans (enqueue wake fd time)
      · exact dropNew fd
    · exact bfLoop fd time
  · exact enqueue wake fd time

/-- A step of a thread that is not about to call `requestHandle`. -/
theorem of_step {l : Thread cfg} (hst : Step s l t)
    (hnot : ∀ w fd arrival, l = .worker w → s.workers w ≠ .handling fd arrival) :
    Quietly s t := by
  cases hst with
  | accept fd _ _ _ => exact ⟨_, rfl, rfl⟩
  | mainLock rand wake fd time _ _ => exact mainSection rand wake fd time
  | blockWake wake fd time _ _ => exact blockLoop wake fd time
  | bfWake fd time _ => exact bfLoop fd time
  | mainSpurious _ => exact of_eq rfl
  | take w tt1 _ =>
    unfold State.takeSection
    split_ifs
    · exact of_eq rfl
    · exact ⟨_, List.append_assoc _ _ _, rfl⟩
    · exact ⟨_, List.append_assoc _ _ _, rfl⟩
  | workerSpurious w _ => exact of_eq rfl
  | handle w fd arrival hw => exact absurd hw (hnot w fd arrival rfl)
  | close w fd _ => exact ⟨_, rfl, rfl⟩
  | finish w fd _ => exact of_eq rfl

end Quietly

/-! ### Whole runs -/

/-- The number of answers of a worker. -/
def answersOf (w : Fin cfg.maxThreads) (as : List (Answer cfg)) : ℕ :=
  as.countP fun a => a.worker = w

/-- The number of those that say that the request was served. -/
def servedOf (w : Fin cfg.maxThreads) (as : List (Answer cfg)) : ℕ :=
  as.countP fun a => a.worker = w && isOk a.chunks

theorem answersOf_snoc (w : Fin cfg.maxThreads) (as : List (Answer cfg)) (a : Answer cfg) :
    answersOf w (as ++ [a]) = answersOf w as + if a.worker = w then 1 else 0 := by
  rw [answersOf, List.countP_append, List.countP_singleton]
  simp only [decide_eq_true_eq, answersOf]

theorem servedOf_snoc (w : Fin cfg.maxThreads) (as : List (Answer cfg)) (a : Answer cfg) :
    servedOf w (as ++ [a]) =
      servedOf w as + if a.worker = w then (if isOk a.chunks then 1 else 0) else 0 := by
  rw [servedOf, List.countP_append, List.countP_singleton]
  simp only [Bool.and_eq_true, decide_eq_true_eq, servedOf, ite_and]

theorem sum_answersOf (as : List (Answer cfg)) : ∑ w, answersOf w as = as.length := by
  induction as using List.reverseRecOn with
  | nil => exact Finset.sum_const_zero
  | append_singleton as a ih =>
    simp only [answersOf_snoc, Finset.sum_add_distrib, ih, Finset.sum_ite_eq, Finset.mem_univ,
      if_true, List.length_append, List.length_singleton]

/-- `1` for a worker that is in a call, which has counted its request. -/
def begun : Option Call → ℕ
  | none => 0
  | some _ => 1

/-- `1` for a worker that is sending an answer which says that the request was served. -/
def serving : Option Call → ℕ
  | some (.writing _ chunks) => if isOk chunks then 1 else 0
  | _ => 0

theorem serving_le_begun (c : Option Call) : serving c ≤ begun c := by
  rcases c with _ | _ | ⟨_, chunks⟩
  · exact le_rfl
  · exact Nat.zero_le 1
  · rw [serving, begun]
    split_ifs <;> decide

/-- The number of calls of `requestHandle`: those that have returned, and those that have not. -/
def CountState.called (s : CountState cfg) : ℕ :=
  (handledSeq s.server.log).length + ∑ w, begun (s.calls w)

/-- What a call reports: the time it was given, its worker, and its number among the answers of
this worker, of which there are `n` before it. -/
def Reports (job : Job) (n : ℕ) (chunks : List (List UInt8)) : Prop :=
  ∃ cnt : Counters, cnt.total job.index = Int32.ofNat (n + 1) ∧
    (statLines job cnt).flatten <:+: chunks.flatten

/-- What the counters of a worker are, for the call that it is in, and what it is about to
report. -/
structure Counted (cnt : Counters) (as : List (Answer cfg)) (w : Fin cfg.maxThreads)
    (c : Option Call) : Prop where
  total : cnt.total w = Int32.ofNat (answersOf w as + begun c)
  served : cnt.static w + cnt.dynamic w = Int32.ofNat (servedOf w as + serving c)
  index : ∀ call ∈ c, call.job.index = w
  reports : ∀ job chunks, c = some (.writing job chunks) → Reports job (answersOf w as) chunks

namespace Counted

variable {cnt cnt' : Counters} {as : List (Answer cfg)} {v w : Fin cfg.maxThreads} {c : Option Call}

/-- What is counted for another worker does not matter. -/
theorem of_eq (h : Counted cnt as v c) (htotal : cnt'.total v = cnt.total v)
    (hserved : cnt'.static v + cnt'.dynamic v = cnt.static v + cnt.dynamic v) :
    Counted cnt' as v c where
  total := htotal.trans h.total
  served := hserved.trans h.served
  index := h.index
  reports := h.reports

/-- A call begins, and counts its request. -/
theorem enter (h : Counted cnt as w none) (arrival dif : Timeval) :
    Counted (cnt.countTotal w) as w (some (.reading ⟨arrival, dif, w⟩)) where
  total := by
    show Function.update cnt.total w (cnt.total w + 1) w = _
    rw [Function.update_self, h.total]
    exact (Int32.ofNat_add _ 1).symm
  served := h.served
  index call hcall := by
    obtain rfl := Option.some.inj hcall
    rfl
  reports job chunks hcall := Call.noConfusion (Option.some.inj hcall)

/-- The request is read, and counted once more if it is served. -/
theorem serve {job : Job} {chunks : List (List UInt8)}
    (h : Counted cnt as w (some (.reading job))) (hcounts : Counts job cnt cnt' chunks) :
    Counted cnt' as w (some (.writing job chunks)) := by
  have hindex : job.index = w := h.index _ rfl
  have htotal : cnt'.total w = Int32.ofNat (answersOf w as + 1) := by
    rw [hcounts.total, h.total, begun]
  refine ⟨htotal, ?_, fun call hcall => ?_, fun job' chunks' hcall => ?_⟩
  · -- the answer that is being sent is the one that was counted
    have hserved : cnt'.static w + cnt'.dynamic w = _ := congrFun hcounts.served w
    rw [hserved, hindex, Function.update_self, h.served]
    simp only [serving]
    split_ifs
    · exact (Int32.ofNat_add _ 1).symm
    · exact Int32.add_zero _
  · obtain rfl := Option.some.inj hcall
    exact hindex
  · cases hcall
    exact ⟨cnt', hindex ▸ htotal, hcounts.reported⟩

/-- The call returns, and its answer is one more of the worker. -/
theorem handle {job : Job} {chunks : List (List UInt8)}
    (h : Counted cnt as w (some (.writing job chunks))) (conn : Option Conn) :
    Counted cnt (as ++ [⟨conn, w, chunks⟩]) w none where
  total := by rw [h.total, answersOf_snoc, if_pos rfl]; rfl
  served := by rw [h.served, servedOf_snoc, if_pos rfl]; rfl
  index _ hcall := absurd hcall (Option.not_mem_none _)
  reports _ _ hcall := absurd hcall.symm (Option.some_ne_none _)

/-- An answer of another worker. -/
theorem snoc (h : Counted cnt as v c) {a : Answer cfg} (ha : a.worker ≠ v) :
    Counted cnt (as ++ [a]) v c where
  total := by rw [h.total, answersOf_snoc, if_neg ha, Nat.add_zero]
  served := by rw [h.served, servedOf_snoc, if_neg ha, Nat.add_zero]
  index := h.index
  reports := by
    rw [answersOf_snoc, if_neg ha, Nat.add_zero]
    exact h.reports

end Counted

/-- The counters are right, and so is what every answer has reported. -/
structure CountInv (s : CountState cfg) : Prop where
  logged : handledSeq s.server.log = s.answers.map Answer.conn
  counted : ∀ w, Counted s.counters s.answers w (s.calls w)
  reported : ∀ front a back, s.answers = front ++ a :: back → ∃ job : Job,
    job.index = a.worker ∧ .handled a.conn (some job.pickUp) ∈ s.server.log ∧
    Reports job (answersOf a.worker front) a.chunks

namespace CountInv

variable {s : CountState cfg}

theorem initial : CountInv (⟨State.initial cfg, .zero, fun _ => none, []⟩ : CountState cfg) where
  logged := rfl
  counted _ := ⟨rfl, rfl, fun _ h => absurd h (Option.not_mem_none _),
    fun _ _ h => absurd h.symm (Option.some_ne_none _)⟩
  reported _ _ _ h := absurd h.symm (List.append_ne_nil_of_right_ne_nil _ (List.cons_ne_nil _ _))

theorem other (h : CountInv s) {t : State cfg} (hq : Quietly s.server t) :
    CountInv { s with server := t } := by
  obtain ⟨es, hlog, hes⟩ := hq
  refine ⟨?_, h.counted, fun front a back hcut => ?_⟩
  · show handledSeq t.log = _
    -- no call of `requestHandle` is among the new events
    have hcut : handledSeq (s.server.log ++ es) = handledSeq s.server.log ++ handledSeq es :=
      List.filterMap_append
    rw [hlog, hcut, hes, List.append_nil, h.logged]
  · obtain ⟨job, hindex, hlogged, hreports⟩ := h.reported front a back hcut
    refine ⟨job, hindex, ?_, hreports⟩
    show _ ∈ t.log
    rw [hlog]
    exact List.mem_append_left _ hlogged

/-- A call that begins is counted for the worker that makes it, and for no other. -/
theorem enter (h : CountInv s) {w : Fin cfg.maxThreads} {arrival dif : Timeval}
    (hw : s.calls w = none) :
    CountInv { s with
      counters := s.counters.countTotal w
      calls := Function.update s.calls w (some (.reading ⟨arrival, dif, w⟩)) } := by
  refine ⟨h.logged, fun v => ?_, h.reported⟩
  have hv := h.counted v
  show Counted _ _ v (Function.update s.calls w _ v)
  by_cases heq : v = w
  · rw [heq, hw] at hv
    rw [heq, Function.update_self]
    exact hv.enter arrival dif
  · -- the counters of different workers are different cells of the arrays
    have hne : (v : ℕ) ≠ w := fun h => heq (Fin.ext h)
    rw [Function.update_of_ne heq]
    exact hv.of_eq (Function.update_of_ne hne _ _) rfl

theorem serve (h : CountInv s) {w : Fin cfg.maxThreads} {job : Job} {chunks : List (List UInt8)}
    {cnt : Counters} (hw : s.calls w = some (.reading job))
    (hcounts : Counts job s.counters cnt chunks) :
    CountInv { s with
      counters := cnt
      calls := Function.update s.calls w (some (.writing job chunks)) } := by
  refine ⟨h.logged, fun v => ?_, h.reported⟩
  have hv := h.counted v
  show Counted _ _ v (Function.update s.calls w _ v)
  by_cases heq : v = w
  · rw [heq, hw] at hv
    rw [heq, Function.update_self]
    exact hv.serve hcounts
  · -- the call counts for its own worker only
    have hindex : job.index = w := (hw ▸ h.counted w).index _ rfl
    have hne : (v : ℕ) ≠ job.index := fun h => heq (Fin.ext (h.trans hindex))
    have hserved : cnt.static v + cnt.dynamic v = _ := congrFun hcounts.served v
    rw [Function.update_of_ne heq]
    exact hv.of_eq (congrFun hcounts.total v) (hserved.trans (Function.update_of_ne hne _ _))

theorem handle (h : CountInv s) {w : Fin cfg.maxThreads} {fd : Int} {job : Job}
    {chunks : List (List UInt8)} (hw : s.calls w = some (.writing job chunks)) :
    CountInv ⟨s.server.handleReq w fd (some job.pickUp), s.counters,
      Function.update s.calls w none, s.answers ++ [⟨s.server.openFds fd, w, chunks⟩]⟩ where
  logged := by
    show handledSeq (s.server.log ++ [_]) = _
    rw [handledSeq, List.filterMap_append, List.map_append]
    exact congrArg (· ++ _) h.logged
  counted v := by
    have hv := h.counted v
    show Counted _ _ v (Function.update s.calls w _ v)
    by_cases heq : v = w
    · rw [heq, hw] at hv
      rw [heq, Function.update_self]
      exact hv.handle _
    · rw [Function.update_of_ne heq]
      exact hv.snoc fun h => heq h.symm
  reported front a back hcut := by
    have hcalled := h.counted w
    rw [hw] at hcalled
    rcases List.eq_nil_or_concat back with rfl | ⟨back, a', rfl⟩
    · -- the answer that has just been given
      obtain ⟨rfl, hlast⟩ := List.append_inj' hcut rfl
      obtain rfl := List.singleton_inj.mp hlast
      exact ⟨job, hcalled.index _ rfl, List.mem_append_right _ List.mem_cons_self,
        hcalled.reports job chunks rfl⟩
    · -- an answer before it, about which nothing has changed
      have hcut' : s.answers = front ++ a :: back := by
        rw [List.concat_eq_append, ← List.cons_append, ← List.append_assoc] at hcut
        exact (List.append_inj' hcut rfl).1
      obtain ⟨job', hindex, hlogged, hreports⟩ := h.reported front a back hcut'
      exact ⟨job', hindex, List.mem_append_left _ hlogged, hreports⟩

/-- **The statistics are right** in every reachable state. -/
theorem of_reachable (h : (counting cfg).Reachable s) : CountInv s := by
  have hstep : ∀ (s : CountState cfg) l t, CountInv s → (counting cfg).step s l t →
      CountInv t := by
    intro s l t hs hst
    cases hst with
    | other l t hst hnot => exact hs.other (Quietly.of_step hst hnot)
    | enter w fd arrival cur _ hw => exact hs.enter hw
    | serve w job env fuel r r' chunks cnt hw hcall =>
      exact hs.serve hw (answerRequest_counts hcall)
    | handle w fd job chunks _ hw => exact hs.handle hw
  refine h.invariant ?_ hstep
  rintro _ rfl
  exact initial

end CountInv

section Results

variable {s : CountState cfg}

theorem answersOf_le (w : Fin cfg.maxThreads) (as : List (Answer cfg)) :
    answersOf w as ≤ as.length :=
  List.countP_le_length

theorem servedOf_le (w : Fin cfg.maxThreads) (as : List (Answer cfg)) :
    servedOf w as ≤ answersOf w as :=
  List.countP_mono_left fun _ _ h => ((Bool.and_eq_true _ _).mp h).1

theorem CountInv.sum_total (h : CountInv s) :
    ∑ w, (answersOf w s.answers + begun (s.calls w)) = s.called := by
  rw [Finset.sum_add_distrib, sum_answersOf, CountState.called, h.logged, List.length_map]

/-- **The counters are exact.** In every state of a run in which fewer than `2 ^ 31` calls of
`requestHandle` have begun: each worker's total is the number of requests that it has answered, and
the one that it is busy with, if there is one; the static and the dynamic ones together are those
that it has served, the answer that it is sending included; and the totals of all workers add up to
the number of calls that have begun. -/
theorem counters_exact (h : (counting cfg).Reachable s) (hfew : s.called < 2 ^ 31) :
    (∀ w : Fin cfg.maxThreads,
      (s.counters.total w).toInt = answersOf w s.answers + begun (s.calls w) ∧
      (s.counters.static w + s.counters.dynamic w).toInt
        = servedOf w s.answers + serving (s.calls w)) ∧
    ∑ w : Fin cfg.maxThreads, (s.counters.total w).toInt = s.called := by
  have hinv := CountInv.of_reachable h
  -- one worker has not more calls than all together, so that no counter wraps
  have hle : ∀ w, answersOf w s.answers + begun (s.calls w) < 2 ^ 31 := by
    intro w
    refine lt_of_le_of_lt ?_ hfew
    rw [← hinv.sum_total]
    exact Finset.single_le_sum (f := fun w => answersOf w s.answers + begun (s.calls w))
      (fun _ _ => Nat.zero_le _) (Finset.mem_univ w)
  have htotal : ∀ w : Fin cfg.maxThreads, (s.counters.total w).toInt =
      ((answersOf w s.answers + begun (s.calls w) : ℕ) : ℤ) := by
    intro w
    rw [(hinv.counted w).total]
    exact Int32.toInt_ofNat_of_lt (hle w)
  refine ⟨fun w => ⟨htotal w, ?_⟩, ?_⟩
  · -- what was served is a part of what was answered
    have hserved := Nat.add_le_add (servedOf_le w s.answers) (serving_le_begun (s.calls w))
    rw [(hinv.counted w).served]
    exact Int32.toInt_ofNat_of_lt (hserved.trans_lt (hle w))
  · calc ∑ w : Fin cfg.maxThreads, (s.counters.total w).toInt
        = ∑ w, ((answersOf w s.answers + begun (s.calls w) : ℕ) : ℤ) :=
          Finset.sum_congr rfl fun w _ => htotal w
      _ = ((∑ w, (answersOf w s.answers + begun (s.calls w)) : ℕ) : ℤ) := (Nat.cast_sum _ _).symm
      _ = s.called := by rw [hinv.sum_total]

/-- **Every answer reports what is right.** In every run, whatever the order of the threads: an
answer goes to a connection that was accepted, reports the time that the main thread has recorded
for this connection, the number of the worker, and how many requests this worker has answered,
itself included. -/
theorem answer_statistics (h : (counting cfg).Reachable s)
    (hfew : (handledSeq s.server.log).length < 2 ^ 31) {front back : List (Answer cfg)}
    {a : Answer cfg} (hcut : s.answers = front ++ a :: back) :
    ∃ c tm dispatch static dynamic, a.conn = some c ∧ .accepted c ∈ s.server.log ∧
      (∀ tm', .recorded (some c) tm' ∈ s.server.log ↔ tm' = tm) ∧
      [line "Stat-Req-Arrival:: " (formatTime tm), line "Stat-Req-Dispatch:: " dispatch,
        line "Stat-Thread-Id:: " (formatNat a.worker),
        line "Stat-Thread-Count:: " (formatNat (answersOf a.worker front + 1)),
        line "Stat-Thread-Static:: " static,
        line "Stat-Thread-Dynamic:: " dynamic].flatten <:+: a.chunks.flatten := by
  have hinv := CountInv.of_reachable h
  have hhist := HistInv.of_reachable (counting_reachable h)
  -- the call of this answer, in the log, and the time that the main thread recorded
  obtain ⟨job, hindex, hlogged, cnt, htotal, hreported⟩ := hinv.reported front a back hcut
  obtain ⟨tm, htm, hrecorded⟩ := hhist.handled_spec _ _ hlogged
  obtain ⟨c, hconn, hlt⟩ := hhist.recorded_spec _ _ hrecorded
  obtain rfl := Option.some.inj htm
  rw [hconn] at hrecorded
  -- the answers up to this one are some of those given
  have hlen : answersOf a.worker front + 1 < 2 ^ 31 := by
    have hle := answersOf_le a.worker front
    rw [hinv.logged, List.length_map, hcut, List.length_append, List.length_cons] at hfew
    omega
  have hcount : (cnt.total job.index).toInt = ((answersOf a.worker front + 1 : ℕ) : ℤ) := by
    rw [htotal]
    exact Int32.toInt_ofNat_of_lt hlen
  refine ⟨c, job.pickUp, formatTime job.dif, formatInt (cnt.static a.worker).toInt,
    formatInt (cnt.dynamic a.worker).toInt, hconn, (hhist.accepted_iff c).mpr hlt, fun tm' => ?_,
    ?_⟩
  · constructor
    · exact fun hrecorded' => recorded_unique hhist.ordered hrecorded' hrecorded
    · rintro rfl
      exact hrecorded
  · rwa [statLines, hcount, hindex, formatInt_natCast, formatInt_natCast] at hreported

/-! ### A run with one worker -/

/-- The worker has taken the first connection. -/
def takenState : State oneWorker :=
  State.initial oneWorker
    |>.acceptConn 4
    |>.mainSection (fun _ => 0) (fun _ => true) 4 ⟨10, 0⟩
    |>.takeSection ⟨0, Nat.one_pos⟩ ⟨11, 0⟩

/-- It has answered it. -/
def answeredState : State oneWorker := takenState.handleReq ⟨0, Nat.one_pos⟩ 4 (some ⟨10, 0⟩)

theorem handledSeq_answeredState : (handledSeq answeredState.log).length < 2 ^ 31 := by decide

/-- The worker is in the call. -/
theorem countSample_entered :
    (counting oneWorker).Reachable ⟨takenState, Counters.zero.countTotal 0,
      Function.update (fun _ => none) ⟨0, Nat.one_pos⟩
        (some (.reading ⟨⟨10, 0⟩, ⟨1, 0⟩, 0⟩)), []⟩ := by
  have hwake : ∀ ws : Fin oneWorker.maxThreads → WorkerPc, ValidWake ws (fun _ => true) :=
    fun _ ⟨w, hw⟩ => ⟨w, hw, rfl⟩
  have hinit : (counting oneWorker).Reachable ⟨State.initial oneWorker, .zero, fun _ => none, []⟩ :=
    System.Reachable.of_init rfl
  have hmain : ∀ {s : State oneWorker} w fd arrival, Thread.main = Thread.worker w →
      s.workers w ≠ .handling fd arrival := nofun
  have htaken : (counting oneWorker).Reachable ⟨takenState, .zero, fun _ => none, []⟩ := by
    refine hinit
      |>.tail (CountStep.other _ _ _ (Step.accept _ 4 rfl (by decide) rfl) hmain)
      |>.tail (CountStep.other _ _ _ (Step.mainLock _ (fun _ => 0) _ 4 ⟨10, 0⟩ rfl (hwake _)) hmain)
      |>.tail (CountStep.other _ _ _ (Step.take _ ⟨0, Nat.one_pos⟩ ⟨11, 0⟩ (Or.inl rfl)) ?_)
    intro w fd arrival _ hw
    cases show WorkerPc.idle = .handling fd arrival from hw
  exact htaken.tail (CountStep.enter _ ⟨0, Nat.one_pos⟩ 4 ⟨10, 0⟩ ⟨11, 0⟩ rfl rfl)

/-- The answer was an error. -/
theorem countSample_reachable :
    ∃ chunks calls, (counting oneWorker).Reachable
      ⟨answeredState, Counters.zero.countTotal 0, calls, [⟨some 0, ⟨0, Nat.one_pos⟩, chunks⟩]⟩ ∧
      ∀ w, calls w = none := by
  obtain ⟨chunks, hcall⟩ := requestHandle_post ⟨⟨10, 0⟩, ⟨1, 0⟩, 0⟩
  have hwritten := countSample_entered
    |>.tail (CountStep.serve _ ⟨0, Nat.one_pos⟩ _ emptyEnv 1 _ _ chunks _ rfl hcall)
    |>.tail (CountStep.handle _ ⟨0, Nat.one_pos⟩ 4 _ chunks rfl rfl)
  refine ⟨chunks, _, hwritten, fun w => ?_⟩
  obtain rfl : w = ⟨0, Nat.one_pos⟩ := Subsingleton.elim (α := Fin 1) _ _
  rfl

/-- While the call lasts the request is counted and not answered; when it has returned the two
numbers agree. -/
theorem counters_exact_sample :
    (∃ s : CountState oneWorker, (counting oneWorker).Reachable s ∧
      ∑ w : Fin oneWorker.maxThreads, (s.counters.total w).toInt = 1 ∧ s.answers = []) ∧
    ∃ s : CountState oneWorker, (counting oneWorker).Reachable s ∧
      ∑ w : Fin oneWorker.maxThreads, (s.counters.total w).toInt = s.answers.length := by
  obtain ⟨chunks, calls, h, hcalls⟩ := countSample_reachable
  have hcalled : CountState.called ⟨answeredState, Counters.zero.countTotal 0, calls,
      [⟨some 0, ⟨0, Nat.one_pos⟩, chunks⟩]⟩ = 1 := by
    simp only [CountState.called, hcalls, begun, Finset.sum_const_zero]
    rfl
  refine ⟨⟨_, countSample_entered, (counters_exact countSample_entered (by decide)).2, rfl⟩,
    _, h, ?_⟩
  rw [(counters_exact h (hcalled ▸ by decide)).2, hcalled]
  rfl

theorem answer_statistics_sample :
    ∃ chunks calls dispatch static dynamic,
      (counting oneWorker).Reachable ⟨answeredState, Counters.zero.countTotal 0, calls,
        [⟨some 0, ⟨0, Nat.one_pos⟩, chunks⟩]⟩ ∧
      [line "Stat-Req-Arrival:: " (formatTime ⟨10, 0⟩), line "Stat-Req-Dispatch:: " dispatch,
        line "Stat-Thread-Id:: " (formatNat 0), line "Stat-Thread-Count:: " (formatNat 1),
        line "Stat-Thread-Static:: " static,
        line "Stat-Thread-Dynamic:: " dynamic].flatten <:+: chunks.flatten := by
  obtain ⟨chunks, calls, h, -⟩ := countSample_reachable
  obtain ⟨c, tm, dispatch, static, dynamic, hconn, -, hrecorded, hlines⟩ :=
    answer_statistics h handledSeq_answeredState (show _ = [] ++ _ :: [] from rfl)
  obtain rfl : 0 = c := Option.some.inj hconn
  have hlog : .recorded (some 0) ⟨10, 0⟩ ∈ answeredState.log := by decide
  obtain rfl : ⟨10, 0⟩ = tm := (hrecorded ⟨10, 0⟩).mp hlog
  exact ⟨chunks, calls, dispatch, static, dynamic, h, hlines⟩

end Results

end Reply
end Server
end OsHomework
