import OsHomework.Shell.Jobs

/-!
# The table after a pass, and `quit kill`

`removeFinishedJobs` returns from the middle of its loop when a `waitpid` answers
`-1`. The jobs it has erased by then are gone, the jobs behind are not asked
about, and `cur_size` and `max_index` keep their values. `quit kill` prints
`cur_size` and then lists the jobs one by one, so it is where a stale counter
shows.

`Holds` is the table a pass should leave: the jobs that are not reported
finished, with both counters computed from them. `removeFinishedJobs_holds_iff`
gives the answers and the counters for which it does.
-/

namespace OsHomework
namespace Shell

/-! ### `quit` -/

/-- What `quit` has printed when it calls `exit`. -/
structure QuitOutput where
  /-- The number in `smash: sending SIGKILL signal to … jobs:`, when that line is printed. -/
  count : Option Int
  /-- The lines `pid: cmd`. -/
  listed : List (Int × String)
  /-- `smash error: kill failed`. -/
  killFailed : Bool
  deriving DecidableEq, Repr

/-- The text on the standard output. -/
def QuitOutput.lines (out : QuitOutput) : List String :=
  (out.count.toList.map fun n => "smash: sending SIGKILL signal to " ++ toString n ++ " jobs:") ++
    out.listed.map fun job => toString job.1 ++ ": " ++ job.2

namespace JobsList

/-- The loop of `killAllJobs` from the `k`-th `kill` on; the flag is `false` when
one has failed. A job is listed before it is killed. -/
def killAllLoop (killed : ℕ → Bool) : ℕ → List JobEntry → List (Int × String) × Bool
  | _, [] => ([], true)
  | k, j :: js =>
    if killed k then
      ((j.jobPid, j.cmd) :: (killAllLoop killed (k + 1) js).1, (killAllLoop killed (k + 1) js).2)
    else ([(j.jobPid, j.cmd)], false)

/-- `JobsList::killAllJobs`: the lines it prints, whether all signals were sent,
and the table it leaves. -/
def killAllJobs (killed : ℕ → Bool) (l : JobsList) : (List (Int × String) × Bool) × JobsList :=
  let run := killAllLoop killed 0 l.jobsList
  -- the table is cleared only at the end
  (run, if run.2 then { l with jobsList := [] } else l)

end JobsList

/-- `QuitCommand::execute`, up to `exit(0)`. -/
def quit (parametrs : List String) (killed : ℕ → Bool) (jobs : JobsList) : QuitOutput :=
  if 2 ≤ parametrs.length ∧ parametrs[1]? = some "kill" then
    ⟨some jobs.curSize, (jobs.killAllJobs killed).1.1, !(jobs.killAllJobs killed).1.2⟩
  else ⟨none, [], false⟩

namespace JobsList

/-- All jobs are listed exactly when no `kill` fails before the last one. -/
theorem length_killAllLoop_iff (killed : ℕ → Bool) (k : ℕ) (js : List JobEntry) :
    (killAllLoop killed k js).1.length = js.length ↔
      ∀ i, i + 1 < js.length → killed (k + i) = true := by
  induction js generalizing k with
  | nil => simp [killAllLoop]
  | cons j js ih =>
    unfold killAllLoop
    by_cases hk : killed k = true
    · rw [if_pos hk, List.length_cons, List.length_cons, Nat.add_right_cancel_iff, ih]
      constructor
      · intro h i hi
        cases i with
        | zero => exact hk
        | succ i =>
          rw [show k + (i + 1) = k + 1 + i by omega]
          exact h i (by omega)
      · intro h i hi
        rw [show k + 1 + i = k + (i + 1) by omega]
        exact h (i + 1) (by omega)
    · -- the listing ends with this job
      rw [if_neg hk, List.length_singleton, List.length_cons]
      constructor
      · intro h i hi
        omega
      · intro h
        by_contra hlen
        exact hk (h 0 (by omega))

/-! ### What a pass should leave -/

/-- The jobs that are not reported finished, when `wp k` is the answer for the
first of them. -/
def unfinished (wp : ℕ → WaitResult) (k : ℕ) (js : List JobEntry) : List JobEntry :=
  ((js.zipIdx k).filter fun p => wp p.2 ≠ .finished).map Prod.fst

/-- The table lists exactly `js`, and both counters fit: the next id is one above
the largest, `1` when there is none. -/
structure Holds (l : JobsList) (js : List JobEntry) : Prop where
  jobs : l.jobsList = js
  curSize : l.curSize = js.length
  maxIndex : l.maxIndex = 1 + largestId js

theorem unfinished_cons_of_finished {wp : ℕ → WaitResult} {k : ℕ} (h : wp k = .finished)
    (j : JobEntry) (js : List JobEntry) :
    unfinished wp k (j :: js) = unfinished wp (k + 1) js := by
  simp [unfinished, List.zipIdx_cons, h]

theorem unfinished_cons_of_ne {wp : ℕ → WaitResult} {k : ℕ} (h : wp k ≠ .finished)
    (j : JobEntry) (js : List JobEntry) :
    unfinished wp k (j :: js) = j :: unfinished wp (k + 1) js := by
  simp [unfinished, List.zipIdx_cons, h]

theorem unfinished_sublist (wp : ℕ → WaitResult) (k : ℕ) (js : List JobEntry) :
    (unfinished wp k js).Sublist js := by
  have h : ((js.zipIdx k).map Prod.fst) = js := List.zipIdx_map_fst k js
  conv_rhs => rw [← h]
  exact List.filter_sublist.map Prod.fst

theorem unfinished_eq_self_iff (wp : ℕ → WaitResult) (k : ℕ) (js : List JobEntry) :
    unfinished wp k js = js ↔ ∀ i < js.length, wp (k + i) ≠ .finished := by
  induction js generalizing k with
  | nil => simp [unfinished]
  | cons j js ih =>
    by_cases hk : wp k = .finished
    · rw [unfinished_cons_of_finished hk]
      constructor
      · -- a shorter list is not the whole one
        intro h
        have hle := (unfinished_sublist wp (k + 1) js).length_le
        have hlen := congrArg List.length h
        rw [List.length_cons] at hlen
        omega
      · intro h
        exact absurd hk (h 0 (by simp))
    · rw [unfinished_cons_of_ne hk, List.cons.injEq, ih]
      constructor
      · rintro ⟨-, h⟩ i hi
        cases i with
        | zero => exact hk
        | succ i =>
          rw [show k + (i + 1) = k + 1 + i by omega]
          exact h i (by simpa using hi)
      · intro h
        refine ⟨rfl, fun i hi => ?_⟩
        rw [show k + 1 + i = k + (i + 1) by omega]
        exact h (i + 1) (by simpa using hi)

/-! ### What the loop leaves -/

/-- Without a `-1` the loop erases exactly the finished jobs. -/
theorem reapLoop_of_answered {wp : ℕ → WaitResult} {k : ℕ} {js : List JobEntry}
    (h : ∀ i < js.length, wp (k + i) ≠ .failed) :
    reapLoop wp k js = (unfinished wp k js, true) := by
  induction js generalizing k with
  | nil => rfl
  | cons j js ih =>
    have hrest : ∀ i < js.length, wp (k + 1 + i) ≠ .failed := by
      intro i hi
      rw [show k + 1 + i = k + (i + 1) by omega]
      exact h (i + 1) (by simpa using hi)
    unfold reapLoop
    cases hk : wp k with
    | finished => rw [unfinished_cons_of_finished hk, ih hrest]
    | failed => exact absurd hk (h 0 (by simp))
    | running => rw [unfinished_cons_of_ne (by rw [hk]; decide), ih hrest]

/-- The jobs behind the `n`-th of `js` are those behind the next one of `j :: js`. -/
theorem forall_later_cons_iff {wp : ℕ → WaitResult} {k n : ℕ} {j : JobEntry}
    {js : List JobEntry} :
    (∀ i, n < i → i < js.length → wp (k + 1 + i) ≠ .finished) ↔
      ∀ i, n + 1 < i → i < (j :: js).length → wp (k + i) ≠ .finished := by
  constructor
  · intro h i hni hi
    obtain ⟨i, rfl⟩ := Nat.exists_eq_succ_of_ne_zero (show i ≠ 0 by omega)
    rw [show k + (i + 1) = k + 1 + i by omega]
    exact h i (by omega) (by simpa using hi)
  · intro h i hni hi
    rw [show k + 1 + i = k + (i + 1) by omega]
    exact h (i + 1) (by omega) (by simpa using hi)

/-- With a `-1`, at the `n`-th job first, the loop stops there, and what it leaves
is the list without the finished jobs only if no job behind is a finished one. -/
theorem reapLoop_of_failed {wp : ℕ → WaitResult} {k n : ℕ} {js : List JobEntry}
    (hn : n < js.length) (hfail : wp (k + n) = .failed)
    (hfirst : ∀ i < n, wp (k + i) ≠ .failed) :
    (reapLoop wp k js).2 = false ∧
      ((reapLoop wp k js).1 = unfinished wp k js ↔
        ∀ i, n < i → i < js.length → wp (k + i) ≠ .finished) := by
  induction js generalizing k n with
  | nil => simp at hn
  | cons j js ih =>
    unfold reapLoop
    cases n with
    | zero =>
      -- the answer for this job is the `-1`
      have hk : wp k = .failed := hfail
      have hne : wp k ≠ .finished := by
        rw [hk]
        decide
      rw [hk, unfinished_cons_of_ne hne]
      refine ⟨rfl, ?_⟩
      rw [List.cons.injEq, eq_comm (a := js), unfinished_eq_self_iff]
      constructor
      · rintro ⟨-, h⟩ i hpos hi
        obtain ⟨i, rfl⟩ := Nat.exists_eq_succ_of_ne_zero hpos.ne'
        rw [show k + (i + 1) = k + 1 + i by omega]
        exact h i (by simpa using hi)
      · intro h
        refine ⟨rfl, fun i hi => ?_⟩
        rw [show k + 1 + i = k + (i + 1) by omega]
        exact h (i + 1) (by omega) (by simpa using hi)
    | succ n =>
      have hk : wp k ≠ .failed := hfirst 0 (by omega)
      obtain ⟨hflag, hiff⟩ := ih (k := k + 1) (n := n) (by simpa using hn)
        (by rw [show k + 1 + n = k + (n + 1) by omega]; exact hfail)
        (fun i hi => by
          rw [show k + 1 + i = k + (i + 1) by omega]
          exact hfirst (i + 1) (by omega))
      cases hwp : wp k with
      | finished =>
        rw [unfinished_cons_of_finished hwp]
        exact ⟨hflag, hiff.trans forall_later_cons_iff⟩
      | failed => exact absurd hwp hk
      | running =>
        rw [unfinished_cons_of_ne (by rw [hwp]; decide)]
        refine ⟨hflag, ?_⟩
        rw [List.cons.injEq]
        exact (and_iff_right rfl).trans (hiff.trans forall_later_cons_iff)

/-! ### The pass -/

/-- No `waitpid` of a pass over `js` answers `-1`. -/
def Answered (wp : ℕ → WaitResult) (js : List JobEntry) : Prop :=
  ∀ i < js.length, wp i ≠ .failed

/-- The jobs behind the first that answers `-1` are not finished ones. -/
def QuietAfterFailure (wp : ℕ → WaitResult) (js : List JobEntry) : Prop :=
  ∃ n < js.length, wp n = .failed ∧ (∀ i < n, wp i ≠ .failed) ∧
    ∀ i, n < i → i < js.length → wp i ≠ .finished

/-- The first answer that is `-1`. -/
theorem exists_first_failed {wp : ℕ → WaitResult} {js : List JobEntry} (h : ¬ Answered wp js) :
    ∃ n < js.length, wp n = .failed ∧ ∀ i < n, wp i ≠ .failed := by
  have hex : ∃ n, n < js.length ∧ wp n = .failed := by
    unfold Answered at h
    push Not at h
    exact h
  obtain ⟨hlt, hfail⟩ := Nat.find_spec hex
  refine ⟨Nat.find hex, hlt, hfail, fun i hi hi' => ?_⟩
  exact Nat.find_min hex hi ⟨hi.trans hlt, hi'⟩

/-- After a pass without a `-1` the table is what it should be. -/
theorem holds_of_answered {l : JobsList} {wp : ℕ → WaitResult}
    (hid : ∀ j ∈ l.jobsList, 1 ≤ j.jobId ∧ j.jobId < 2 ^ 31 - 1) (h : Answered wp l.jobsList) :
    Holds (l.removeFinishedJobs wp) (unfinished wp 0 l.jobsList) := by
  have hloop : reapLoop wp 0 l.jobsList = (unfinished wp 0 l.jobsList, true) :=
    reapLoop_of_answered (by simpa [Answered] using h)
  unfold removeFinishedJobs
  split
  · next hnil => exact ⟨by simp [hnil, unfinished], by simp [hnil, unfinished],
      by simp [hnil, unfinished, largestId]⟩
  · rw [hloop]
    dsimp only
    rw [if_neg (by decide)]
    split
    · next hnil => exact ⟨rfl, rfl, by simp [hnil, largestId]⟩
    · next hne =>
      -- the second loop starts from `1`, which no listed id is below, and ends below `INT_MAX`
      have hsub := (unfinished_sublist wp 0 l.jobsList).subset
      obtain ⟨hmax, hpos, hlt⟩ := maxLoop_of_ids hne (fun j hj => (hid j (hsub hj)).1)
        (fun j hj => (hid j (hsub hj)).2)
      refine ⟨rfl, rfl, ?_⟩
      dsimp only
      rw [hmax, wrapInt_eq ⟨by omega, by omega⟩]
      exact add_comm _ _

/-- After a pass with a `-1` it is so only if nothing had to be changed behind
that job and the counters were right before. -/
theorem holds_iff_of_failed {l : JobsList} {wp : ℕ → WaitResult} (h : ¬ Answered wp l.jobsList) :
    Holds (l.removeFinishedJobs wp) (unfinished wp 0 l.jobsList) ↔
      QuietAfterFailure wp l.jobsList ∧
        l.curSize = (unfinished wp 0 l.jobsList).length ∧
        l.maxIndex = 1 + largestId (unfinished wp 0 l.jobsList) := by
  obtain ⟨n, hn, hfail, hfirst⟩ := exists_first_failed h
  obtain ⟨hflag, hiff⟩ := @reapLoop_of_failed wp 0 n l.jobsList hn (by simpa using hfail)
    (by simpa using hfirst)
  have hne : l.jobsList ≠ [] := List.ne_nil_of_length_pos (by omega)
  -- the early return
  have hpass : l.removeFinishedJobs wp = { l with jobsList := (reapLoop wp 0 l.jobsList).1 } := by
    unfold removeFinishedJobs
    rw [if_neg hne]
    dsimp only
    rw [if_pos hflag]
  have hquiet : QuietAfterFailure wp l.jobsList ↔
      ∀ i, n < i → i < l.jobsList.length → wp (0 + i) ≠ .finished := by
    constructor
    · rintro ⟨m, hm, hmfail, hmfirst, hbehind⟩ i hi
      -- there is only one first failure
      obtain rfl : m = n := by
        rcases lt_trichotomy m n with hlt | rfl | hlt
        · exact absurd hmfail (hfirst m hlt)
        · rfl
        · exact absurd hfail (hmfirst n hlt)
      rw [Nat.zero_add]
      exact hbehind i hi
    · intro hbehind
      exact ⟨n, hn, hfail, hfirst, by simpa using hbehind⟩
  rw [hpass, hquiet, ← hiff]
  constructor
  · intro hh
    exact ⟨hh.jobs, hh.curSize, hh.maxIndex⟩
  · rintro ⟨hjobs, hcur, hmax⟩
    exact ⟨hjobs, hcur, hmax⟩

/-- `quit kill` after a pass that left the table as it should be. -/
theorem count_eq_length_iff {l : JobsList} {js : List JobEntry} (h : Holds l js)
    (killed : ℕ → Bool) :
    (quit ["quit", "kill"] killed l).count =
        some ((quit ["quit", "kill"] killed l).listed.length : Int) ↔
      ∀ i, i + 1 < js.length → killed i = true := by
  have hquit : quit ["quit", "kill"] killed l =
      ⟨some l.curSize, (killAllLoop killed 0 l.jobsList).1,
        !(killAllLoop killed 0 l.jobsList).2⟩ := by
    unfold quit
    rw [if_pos ⟨by simp, rfl⟩]
    rfl
  have hall := length_killAllLoop_iff killed 0 js
  simp only [Nat.zero_add] at hall
  rw [hquit, h.curSize, h.jobs, ← hall, Option.some.injEq, Nat.cast_inj]
  exact eq_comm

/-- **The table a pass leaves, and the count of `quit kill`.** Ids are handed out
from `1` on, and the id behind each one is an `int`. The pass leaves the jobs that
are not reported finished with counters that fit, and `quit kill` lists as many
jobs as it announces, exactly if no
`waitpid` answers `-1`, or the pass has nothing to change behind the first job
that does and in the counters; and no `kill` fails before the last. -/
theorem removeFinishedJobs_holds_iff (l : JobsList) (wp : ℕ → WaitResult) (killed : ℕ → Bool)
    (hid : ∀ j ∈ l.jobsList, 1 ≤ j.jobId ∧ j.jobId < 2 ^ 31 - 1) :
    (Holds (l.removeFinishedJobs wp) (unfinished wp 0 l.jobsList) ∧
      (quit ["quit", "kill"] killed (l.removeFinishedJobs wp)).count =
        some ((quit ["quit", "kill"] killed (l.removeFinishedJobs wp)).listed.length : Int)) ↔
    (Answered wp l.jobsList ∨
      QuietAfterFailure wp l.jobsList ∧
        l.curSize = (unfinished wp 0 l.jobsList).length ∧
        l.maxIndex = 1 + largestId (unfinished wp 0 l.jobsList)) ∧
    ∀ i, i + 1 < (unfinished wp 0 l.jobsList).length → killed i = true := by
  have htable : Holds (l.removeFinishedJobs wp) (unfinished wp 0 l.jobsList) ↔
      (Answered wp l.jobsList ∨
        QuietAfterFailure wp l.jobsList ∧
          l.curSize = (unfinished wp 0 l.jobsList).length ∧
          l.maxIndex = 1 + largestId (unfinished wp 0 l.jobsList)) := by
    by_cases h : Answered wp l.jobsList
    · exact ⟨fun _ => Or.inl h, fun _ => holds_of_answered hid h⟩
    · -- the pass stops in the middle and recomputes no counter
      exact (holds_iff_of_failed h).trans ⟨Or.inr, fun hc => hc.resolve_left h⟩
  rw [← htable]
  exact and_congr_right fun hh => count_eq_length_iff hh killed

end JobsList

/-- Two jobs in the background. -/
def twoJobs : JobsList := ⟨[⟨"sleep 1&", 101, 1, 0⟩, ⟨"sleep 2&", 102, 2, 1⟩], 3, 2⟩

/-- The first job has finished, the wait for the second answers `-1`. -/
def finishedThenFailed : ℕ → WaitResult
  | 0 => .finished
  | _ => .failed

theorem twoJobs_ids : ∀ j ∈ twoJobs.jobsList, 1 ≤ j.jobId ∧ j.jobId < 2 ^ 31 - 1 := by decide

/-- A pass in which the first job has finished and the second one runs. -/
theorem removeFinishedJobs_holds_iff_twoJobs :
    JobsList.unfinished olderFinished 0 twoJobs.jobsList = [⟨"sleep 2&", 102, 2, 1⟩] ∧
      JobsList.Holds (twoJobs.removeFinishedJobs olderFinished)
        (JobsList.unfinished olderFinished 0 twoJobs.jobsList) := by
  have hanswered : JobsList.Answered olderFinished twoJobs.jobsList := by
    rintro (_ | _) _ h <;> cases h
  exact ⟨by decide, ((JobsList.removeFinishedJobs_holds_iff twoJobs olderFinished (fun _ => true)
    twoJobs_ids).mpr ⟨Or.inl hanswered, fun _ _ => rfl⟩).1⟩

/-- The first job is gone, and `quit kill` announces two jobs and lists one. -/
theorem stale_count_after_failed_wait :
    ¬ JobsList.Holds (twoJobs.removeFinishedJobs finishedThenFailed)
      (JobsList.unfinished finishedThenFailed 0 twoJobs.jobsList) ∧
    (quit ["quit", "kill"] (fun _ => true) (twoJobs.removeFinishedJobs finishedThenFailed)) =
      ⟨some 2, [(102, "sleep 2&")], false⟩ := by
  refine ⟨fun h => ?_, by decide⟩
  have hcur := h.curSize
  revert hcur
  decide

end Shell
end OsHomework
