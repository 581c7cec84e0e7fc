import Mathlib.Data.List.Pairwise
import OsHomework.Lib.CInt

/-!
# The job table of the shell

`JobsList` of `Commands.cpp`, with the calls `SmallShell::executeCommand` makes
on it: `addJob` for a background command, `removeFinishedJobs` before every
command, `getLastJob`, `getJobById` and `removeJobById` for `fg`.

What the operating system answers is a parameter of each call. The `k`-th
`waitpid(pid, &status, WNOHANG)` of one `removeFinishedJobs` pass answers
`wp k`, which is `0`, the pid or `-1`; the blocking `waitpid` of `fg` answers a
`FgWait`; `fork` answers `-1` or a pid.

The counters `max_index` and `cur_size` are `int`s, and what is assigned to them
wraps. `cur_size` stays between `0` and `MAX_JOBS_NUM`. `max_index` starts again
from `1` only when the table is empty, and the job that is added when it is
`INT_MAX` takes it past its end: from then on the ids are no longer below it
(`jobTable_overflows`). In the sessions in which no job is given that id the
invariant holds (`jobTable_invariant`); at least `2 ^ 31 - 1` jobs have to be added
for one to get there (`idsFit_of_added_lt`).
-/

namespace OsHomework
namespace Shell

/-! ### The data -/

/-- The answer of `waitpid(pid, &status, WNOHANG)`. -/
inductive WaitResult
  /-- `0`: the child has not changed state. -/
  | running
  /-- The pid of the child: it has finished. -/
  | finished
  /-- `-1`. -/
  | failed
  deriving DecidableEq, Repr

/-- The answer of `fg`'s `waitpid(pid, &stat, WUNTRACED)`, as far as the code
tells the outcomes apart. -/
inductive FgWait
  | failed
  | exited
  | signaled
  | stopped
  deriving DecidableEq, Repr

/-- `JobsList::JobEntry`. -/
structure JobEntry where
  cmd : String
  jobPid : Int
  jobId : Int
  indexInList : Int
  deriving DecidableEq, Repr

/-- `JobsList`. -/
structure JobsList where
  jobsList : List JobEntry
  maxIndex : Int
  curSize : Int
  deriving DecidableEq, Repr

/-- `MAX_JOBS_NUM`. -/
def maxJobsNum : Int := 100

namespace JobsList

/-- The table as `SmallShell`'s constructor leaves it. -/
def initial : JobsList := ⟨[], 1, 0⟩

/-! ### The operations -/

/-- The erase-while-iterating loop of `removeFinishedJobs`, from the `k`-th
`waitpid` call on. The flag is `false` when a call answered `-1`, on which the
source returns at once with the remaining jobs untouched. -/
def reapLoop (wp : ℕ → WaitResult) : ℕ → List JobEntry → List JobEntry × Bool
  | _, [] => ([], true)
  | k, j :: js =>
    match wp k with
    | .finished => reapLoop wp (k + 1) js
    | .failed => (j :: js, false)
    | .running => (j :: (reapLoop wp (k + 1) js).1, (reapLoop wp (k + 1) js).2)

/-- The second loop of `removeFinishedJobs`: the largest id, starting from `1`. -/
def maxLoop (max : Int) : List JobEntry → Int
  | [] => max
  | j :: js => maxLoop (if j.jobId ≥ max then j.jobId else max) js

/-- `JobsList::removeFinishedJobs`. -/
def removeFinishedJobs (wp : ℕ → WaitResult) (l : JobsList) : JobsList :=
  if l.jobsList = [] then
    { l with curSize := l.jobsList.length, maxIndex := 1 }
  else
    let (js, ok) := reapLoop wp 0 l.jobsList
    -- the early return after `perror` leaves both counters as they were
    if ok = false then { l with jobsList := js }
    else if js = [] then ⟨js, 1, js.length⟩
    else ⟨js, wrapInt (maxLoop 1 js + 1), js.length⟩

/-- `JobsList::getJobById`. -/
def getJobById (jobId : Int) (l : JobsList) : Option JobEntry :=
  l.jobsList.find? (fun j => j.jobId = jobId)

/-- The loop of `getLastJob`. -/
def lastLoop (last : Int) : List JobEntry → Int
  | [] => last
  | j :: js => lastLoop (if j.jobId > last then j.jobId else last) js

/-- `JobsList::getLastJob`: the value written to `*lastJobId` and the result. -/
def getLastJob (l : JobsList) : Int × Option JobEntry :=
  (lastLoop (-1) l.jobsList, getJobById (lastLoop (-1) l.jobsList) l)

/-- `JobsList::removeJobById`. -/
def removeJobById (jobId : Int) (l : JobsList) : JobsList :=
  if l.jobsList.any (fun j => j.jobId = jobId) then
    let l' : JobsList :=
      ⟨l.jobsList.eraseP (fun j => j.jobId = jobId), l.maxIndex, wrapInt (l.curSize - 1)⟩
    if jobId = l.maxIndex then { l' with maxIndex := (getLastJob l').1 } else l'
  else l

/-- `JobsList::addJob`. A null `cmd` is `none`. -/
def addJob (wp : ℕ → WaitResult) (cmd : Option String) (jPid : Int) (l : JobsList) : JobsList :=
  let l := removeFinishedJobs wp l
  if l.curSize = maxJobsNum then l
  else
    match cmd with
    | none => l
    | some cmdLine =>
      ⟨l.jobsList ++ [⟨cmdLine, jPid, l.maxIndex, l.curSize⟩], wrapInt (l.maxIndex + 1),
        wrapInt (l.curSize + 1)⟩

end JobsList

/-! ### The shell around the table -/

/-- The table together with two history variables: every job `addJob` has
appended, with the list it was appended to, and whether some `WNOHANG` wait has
answered `-1`. No operation reads them. -/
structure ShellState where
  jobs : JobsList
  added : List (JobEntry × List JobEntry)
  reapFailed : Bool

namespace ShellState

/-- The shell before its first command. -/
def initial : ShellState := ⟨JobsList.initial, [], false⟩

/-- `jobs.removeFinishedJobs()`. -/
def removeFinishedJobs (wp : ℕ → WaitResult) (s : ShellState) : ShellState :=
  { s with
    jobs := s.jobs.removeFinishedJobs wp
    reapFailed := s.reapFailed || !(JobsList.reapLoop wp 0 s.jobs.jobsList).2 }

/-- `jobs.addJob(this, sonPid)`. -/
def addJob (wp : ℕ → WaitResult) (cmd : Option String) (jPid : Int) (s : ShellState) :
    ShellState :=
  let reaped := (s.jobs.removeFinishedJobs wp).jobsList
  let jobs := s.jobs.addJob wp cmd jPid
  { jobs := jobs
    added := s.added ++ (jobs.jobsList.drop reaped.length).map (fun j => (j, reaped))
    reapFailed := (s.removeFinishedJobs wp).reapFailed }

/-- What `fg` does once its `waitpid` has returned. -/
def afterWait (res : FgWait) (jobId : Int) (s : ShellState) : ShellState :=
  match res with
  | .exited | .signaled => { s with jobs := s.jobs.removeJobById jobId }
  | .failed | .stopped => s

/-- `ForegroundCommand::execute`. The second parameter is given as `std::stoi`
reads it: `none` when the conversion throws or does not use the whole string. -/
def foreground (numOfParams : ℕ) (jobIdArg : Option Int) (wp : ℕ → WaitResult) (res : FgWait)
    (s : ShellState) : ShellState :=
  let s := s.removeFinishedJobs wp
  if numOfParams = 1 then
    match s.jobs.getLastJob with
    | (_, none) => s
    | (jobId, some _) => s.afterWait res jobId
  else
    match jobIdArg with
    | none => s
    | some jobId =>
      if jobId < 1 ∨ jobId > maxJobsNum then s
      else if jobId > s.jobs.maxIndex then s
      else
        match s.jobs.getJobById jobId with
        | none => s
        | some _ => if numOfParams > 2 then s else s.afterWait res jobId

end ShellState

/-- A line given to `executeCommand`, by the class of command it creates, with
the answers of the system calls made while it runs. `wp` belongs to the
`removeFinishedJobs` pass of `executeCommand` itself. `quit` ends the process
and has no next state. -/
inductive CommandLine
  /-- Only whitespace: `executeCommand` returns at once. -/
  | blank
  /-- `chprompt`, `showpid`, `pwd`, `cd` and `kill`, which leave the table alone,
  and a pipe, both sides of which run in child processes. -/
  | builtin (wp : ℕ → WaitResult)
  /-- `jobs`: `printJobsList` starts with a pass of its own. -/
  | jobs (wp wp' : ℕ → WaitResult)
  | foreground (wp : ℕ → WaitResult) (numOfParams : ℕ) (jobIdArg : Option Int)
      (wp' : ℕ → WaitResult) (res : FgWait)
  | external (wp : ℕ → WaitResult) (isBackground : Bool) (cmdLine : String) (sonPid : Int)
      (wp' : ℕ → WaitResult)
  /-- `redirected` tells whether `open`, `dup`, `dup2` and `close` all succeeded:
  only then is the command before the arrow executed. -/
  | redirection (wp : ℕ → WaitResult) (redirected : Bool) (inner : CommandLine)

/-- `SmallShell::executeCommand`, as far as the job table is concerned. -/
def executeCommand : CommandLine → ShellState → ShellState
  | .blank, s => s
  | .builtin wp, s => s.removeFinishedJobs wp
  | .jobs wp wp', s => (s.removeFinishedJobs wp).removeFinishedJobs wp'
  | .foreground wp n arg wp' res, s => (s.removeFinishedJobs wp).foreground n arg wp' res
  | .external wp isBackground cmdLine sonPid wp', s =>
    let s := s.removeFinishedJobs wp
    -- `fork failed` returns; a foreground command is waited for and never listed
    if sonPid = -1 then s
    else if isBackground then s.addJob wp' (some cmdLine) sonPid
    else s
  | .redirection wp redirected inner, s =>
    let s := s.removeFinishedJobs wp
    if redirected then executeCommand inner s else s

/-- A session: the lines are executed one after another. -/
def runSession (lines : List CommandLine) : ShellState :=
  lines.foldl (fun s line => executeCommand line s) ShellState.initial

namespace JobsList

/-! ### The reaping pass -/

theorem reapLoop_sublist (wp : ℕ → WaitResult) (k : ℕ) (js : List JobEntry) :
    ((reapLoop wp k js).1).Sublist js := by
  induction js generalizing k with
  | nil => exact List.Sublist.refl _
  | cons j js ih =>
    unfold reapLoop
    cases wp k with
    | finished => exact (ih (k + 1)).cons j
    | failed => exact List.Sublist.refl _
    | running => exact (ih (k + 1)).cons_cons j

/-- A job that the pass drops was reported finished by its own `waitpid` call. -/
theorem reapLoop_keeps (wp : ℕ → WaitResult) (k : ℕ) (js : List JobEntry) (i : ℕ) (j : JobEntry)
    (hj : js[i]? = some j) : j ∈ (reapLoop wp k js).1 ∨ wp (k + i) = .finished := by
  induction js generalizing k i with
  | nil => simp at hj
  | cons j' js ih =>
    unfold reapLoop
    cases hwp : wp k with
    -- the loop stops here and keeps the rest
    | failed => exact Or.inl (List.mem_of_getElem? hj)
    | finished =>
      cases i with
      | zero => exact Or.inr hwp
      | succ i =>
        -- the `i`-th job behind this one is asked about by the call after its
        have := ih (k + 1) i (by simpa using hj)
        rwa [show k + 1 + i = k + (i + 1) by omega] at this
    | running =>
      cases i with
      | zero =>
        obtain rfl : j' = j := by simpa using hj
        exact Or.inl List.mem_cons_self
      | succ i =>
        have := ih (k + 1) i (by simpa using hj)
        rw [show k + 1 + i = k + (i + 1) by omega] at this
        exact this.imp_left (List.mem_cons_of_mem _)

/-- The table after a pass holds a sublist of the jobs it held before. -/
theorem removeFinishedJobs_sublist (wp : ℕ → WaitResult) (l : JobsList) :
    (l.removeFinishedJobs wp).jobsList.Sublist l.jobsList := by
  unfold removeFinishedJobs
  have h := reapLoop_sublist wp 0 l.jobsList
  split
  · exact List.Sublist.refl _
  · dsimp only
    split
    · exact h
    · split <;> exact h

/-- `removeFinishedJobs` removes a job only when its `waitpid` reported it. -/
theorem removeFinishedJobs_keeps (wp : ℕ → WaitResult) (l : JobsList) (i : ℕ) (j : JobEntry)
    (hj : l.jobsList[i]? = some j) :
    j ∈ (l.removeFinishedJobs wp).jobsList ∨ wp i = .finished := by
  unfold removeFinishedJobs
  have h := reapLoop_keeps wp 0 l.jobsList i j hj
  rw [Nat.zero_add] at h
  split
  · exact Or.inl (List.mem_of_getElem? hj)
  · dsimp only
    split
    · exact h
    · split <;> exact h

/-! ### The largest id -/

/-- The largest id in a list of jobs, `0` when there is none. -/
def largestId (js : List JobEntry) : Int :=
  (js.map JobEntry.jobId).foldr max 0

theorem le_largestId {js : List JobEntry} {j : JobEntry} (hj : j ∈ js) :
    j.jobId ≤ largestId js := by
  induction js with
  | nil => simp at hj
  | cons j' js ih =>
    change j.jobId ≤ max j'.jobId (largestId js)
    rcases List.mem_cons.mp hj with rfl | hj
    · exact le_max_left _ _
    · exact (ih hj).trans (le_max_right _ _)

theorem maxLoop_eq (max₀ : Int) (h : 0 ≤ max₀) (js : List JobEntry) :
    maxLoop max₀ js = max max₀ (largestId js) := by
  induction js generalizing max₀ with
  | nil => simp [maxLoop, largestId, h]
  | cons j js ih =>
    change maxLoop (if j.jobId ≥ max₀ then j.jobId else max₀) js
      = max max₀ (max j.jobId (largestId js))
    by_cases hj : j.jobId ≥ max₀
    · rw [if_pos hj, ih _ (h.trans hj), ← max_assoc, max_eq_right hj]
    · rw [if_neg hj, ih _ h, ← max_assoc, max_eq_left (le_of_not_ge hj)]

/-! ### The invariant of the table -/

/-- What every operation keeps: ids grow along the list and lie between `1` and
the next id, which is an `int`, and `curSize` is an upper bound of the length.
After a pass cut short by a failed `waitpid` it may be a strict one. -/
structure TableInv (l : JobsList) : Prop where
  ids_increasing : l.jobsList.Pairwise (fun i j => i.jobId < j.jobId)
  id_pos : ∀ j ∈ l.jobsList, 1 ≤ j.jobId
  id_lt : ∀ j ∈ l.jobsList, j.jobId < l.maxIndex
  maxIndex_pos : 1 ≤ l.maxIndex
  maxIndex_lt : l.maxIndex < 2 ^ 31
  length_le : (l.jobsList.length : Int) ≤ l.curSize
  curSize_le : l.curSize ≤ maxJobsNum

theorem TableInv.initial : TableInv JobsList.initial where
  ids_increasing := List.Pairwise.nil
  id_pos := by simp [JobsList.initial]
  id_lt := by simp [JobsList.initial]
  maxIndex_pos := le_refl _
  maxIndex_lt := by decide
  length_le := le_refl _
  curSize_le := by decide

variable {l : JobsList}

/-- Dropping jobs keeps the invariant as long as the counters still bound what
is left. -/
theorem TableInv.of_sublist (h : TableInv l) {l' : JobsList}
    (hsub : l'.jobsList.Sublist l.jobsList) (hlt : ∀ j ∈ l'.jobsList, j.jobId < l'.maxIndex)
    (hpos : 1 ≤ l'.maxIndex) (hmax : l'.maxIndex < 2 ^ 31)
    (hlen : (l'.jobsList.length : Int) ≤ l'.curSize) (hcur : l'.curSize ≤ l.curSize) :
    TableInv l' where
  ids_increasing := h.ids_increasing.sublist hsub
  id_pos j hj := h.id_pos j (hsub.subset hj)
  id_lt := hlt
  maxIndex_pos := hpos
  maxIndex_lt := hmax
  length_le := hlen
  curSize_le := hcur.trans h.curSize_le

/-- The largest of some ids that are at least `1` and below `m`. -/
theorem maxLoop_of_ids {js : List JobEntry} {m : Int} (hne : js ≠ [])
    (hpos : ∀ j ∈ js, 1 ≤ j.jobId) (hlt : ∀ j ∈ js, j.jobId < m) :
    maxLoop 1 js = largestId js ∧ 1 ≤ largestId js ∧ largestId js < m := by
  obtain ⟨j, hj⟩ := List.exists_mem_of_ne_nil _ hne
  have h1 : 1 ≤ largestId js := (hpos j hj).trans (le_largestId hj)
  refine ⟨by rw [maxLoop_eq 1 zero_le_one, max_eq_right h1], h1, ?_⟩
  have hm : 0 < m := lt_of_le_of_lt (zero_le_one.trans (hpos j hj)) (hlt j hj)
  clear hne hpos hj h1
  induction js with
  | nil => exact hm
  | cons i js ih =>
    exact max_lt (hlt i List.mem_cons_self) (ih fun j hj => hlt j (List.mem_cons_of_mem _ hj))

/-- The next id that a complete pass computes from the jobs it leaves does not
leave the range of an `int`. -/
theorem TableInv.wrapInt_maxLoop (h : TableInv l) {js : List JobEntry} (hne : js ≠ [])
    (hsub : js.Sublist l.jobsList) :
    wrapInt (maxLoop 1 js + 1) = largestId js + 1 ∧ 1 ≤ largestId js ∧
      largestId js < l.maxIndex := by
  obtain ⟨hmax, hpos, hlt⟩ := maxLoop_of_ids hne (fun j hj => h.id_pos j (hsub.subset hj))
    (fun j hj => h.id_lt j (hsub.subset hj))
  have := h.maxIndex_lt
  exact ⟨by rw [hmax, wrapInt_eq ⟨by omega, by omega⟩], hpos, hlt⟩

theorem one_lt_two_pow : (1 : Int) < 2 ^ 31 := by decide

theorem TableInv.removeFinishedJobs (h : TableInv l) (wp : ℕ → WaitResult) :
    TableInv (l.removeFinishedJobs wp) := by
  have hsub := reapLoop_sublist wp 0 l.jobsList
  have hlen : ((reapLoop wp 0 l.jobsList).1.length : Int) ≤ l.curSize := by
    have := hsub.length_le
    have := h.length_le
    omega
  unfold JobsList.removeFinishedJobs
  split
  · -- an empty table has its counters reset
    next hnil =>
    refine h.of_sublist (List.Sublist.refl _) ?_ (le_refl _) one_lt_two_pow (le_refl _) h.length_le
    simp [hnil]
  · dsimp only
    split
    · -- the early return: fewer jobs, the old counters
      exact h.of_sublist hsub (fun j hj => h.id_lt j (hsub.subset hj)) h.maxIndex_pos
        h.maxIndex_lt hlen le_rfl
    · split
      · -- all jobs have finished
        next hnil =>
        refine h.of_sublist hsub ?_ (le_refl _) one_lt_two_pow (le_refl _) hlen
        intro j hj
        rw [hnil] at hj
        simp at hj
      · -- `maxIndex` is recomputed from what is left
        next hne =>
        obtain ⟨hwrap, hpos, hlt⟩ := h.wrapInt_maxLoop hne hsub
        have hmax := h.maxIndex_lt
        rw [hwrap]
        refine h.of_sublist hsub ?_ ?_ ?_ (le_refl _) hlen
        · intro j hj
          exact Int.lt_add_one_of_le (le_largestId hj)
        · change 1 ≤ largestId _ + 1
          omega
        · change largestId _ + 1 < 2 ^ 31
          omega

/-- A pass does not raise the next id. -/
theorem TableInv.removeFinishedJobs_maxIndex_le (h : TableInv l) (wp : ℕ → WaitResult) :
    (l.removeFinishedJobs wp).maxIndex ≤ l.maxIndex := by
  unfold JobsList.removeFinishedJobs
  split
  · exact h.maxIndex_pos
  · dsimp only
    split
    · exact le_rfl
    · split
      · exact h.maxIndex_pos
      · next hne =>
        obtain ⟨hwrap, -, hlt⟩ := h.wrapInt_maxLoop hne (reapLoop_sublist wp 0 l.jobsList)
        rw [hwrap]
        exact Int.add_one_le_of_lt hlt

/-- The id of a listed job is never `maxIndex`, so `removeJobById` leaves
`maxIndex` alone. -/
theorem TableInv.removeJobById_maxIndex (h : TableInv l) (jobId : Int) :
    (l.removeJobById jobId).maxIndex = l.maxIndex := by
  unfold JobsList.removeJobById
  split
  · next hany =>
    obtain ⟨j, hj, hid⟩ := List.any_eq_true.mp hany
    rw [decide_eq_true_eq] at hid
    have hne : jobId ≠ l.maxIndex := by
      have := h.id_lt j hj
      omega
    dsimp only
    rw [if_neg hne]
  · rfl

theorem TableInv.removeJobById (h : TableInv l) (jobId : Int) :
    TableInv (l.removeJobById jobId) := by
  unfold JobsList.removeJobById
  split
  · next hany =>
    obtain ⟨j, hj, hid⟩ := List.any_eq_true.mp hany
    rw [decide_eq_true_eq] at hid
    -- so the branch that resets `maxIndex` is not taken
    have hne : jobId ≠ l.maxIndex := by
      have := h.id_lt j hj
      omega
    dsimp only
    rw [if_neg hne]
    have hsub : (l.jobsList.eraseP (fun j => j.jobId = jobId)).Sublist l.jobsList :=
      List.eraseP_sublist
    have hlen : (l.jobsList.eraseP (fun j => j.jobId = jobId)).length = l.jobsList.length - 1 :=
      List.length_eraseP_of_mem hj (by simpa using hid)
    have hpos : 0 < l.jobsList.length := List.length_pos_of_mem hj
    have hle := h.length_le
    have hcur : l.curSize ≤ 100 := h.curSize_le
    rw [wrapInt_eq ⟨by omega, by omega⟩]
    refine h.of_sublist hsub (fun j hj => h.id_lt j (hsub.subset hj)) h.maxIndex_pos
      h.maxIndex_lt ?_ ?_
    · change ((l.jobsList.eraseP (fun j => j.jobId = jobId)).length : Int) ≤ l.curSize - 1
      omega
    · change l.curSize - 1 ≤ l.curSize
      omega
  · exact h

/-- What `addJob` makes of the table that its pass leaves: nothing if the table is
full or there is no command, and else one more job, at the end. -/
theorem addJob_cases (wp : ℕ → WaitResult) (cmd : Option String) (jPid : Int) (l : JobsList) :
    l.addJob wp cmd jPid = l.removeFinishedJobs wp ∨
      ∃ cmdLine, cmd = some cmdLine ∧ (l.removeFinishedJobs wp).curSize ≠ maxJobsNum ∧
        l.addJob wp cmd jPid =
          ⟨(l.removeFinishedJobs wp).jobsList ++ [⟨cmdLine, jPid,
              (l.removeFinishedJobs wp).maxIndex, (l.removeFinishedJobs wp).curSize⟩],
            wrapInt ((l.removeFinishedJobs wp).maxIndex + 1),
            wrapInt ((l.removeFinishedJobs wp).curSize + 1)⟩ := by
  unfold addJob
  dsimp only
  split
  · exact Or.inl rfl
  · next hfull =>
    cases cmd with
    | none => exact Or.inl rfl
    | some cmdLine => exact Or.inr ⟨cmdLine, rfl, hfull, rfl⟩

/-- One more job, if the id behind its own is an `int`. -/
theorem TableInv.push (h : TableInv l) (hfull : l.curSize ≠ maxJobsNum)
    (hnext : l.maxIndex < 2 ^ 31 - 1) (cmdLine : String) (jPid : Int) :
    TableInv ⟨l.jobsList ++ [⟨cmdLine, jPid, l.maxIndex, l.curSize⟩], wrapInt (l.maxIndex + 1),
      wrapInt (l.curSize + 1)⟩ := by
  have hlen := h.length_le
  have hcur : l.curSize ≤ 100 := h.curSize_le
  have hpos := h.maxIndex_pos
  have hroom : l.curSize < 100 := lt_of_le_of_ne hcur hfull
  rw [wrapInt_eq ⟨by omega, by omega⟩, wrapInt_eq ⟨by omega, by omega⟩]
  constructor
  · -- the new id is above every listed one
    refine List.pairwise_append.mpr ⟨h.ids_increasing, List.pairwise_singleton _ _, ?_⟩
    intro i hi j hj
    rw [List.mem_singleton.mp hj]
    exact h.id_lt i hi
  · -- `id_pos`
    intro j hj
    rcases List.mem_append.mp hj with hj | hj
    · exact h.id_pos j hj
    · rw [List.mem_singleton.mp hj]
      exact hpos
  · -- `id_lt`: `maxIndex` moves past the new id
    intro j hj
    change j.jobId < l.maxIndex + 1
    rcases List.mem_append.mp hj with hj | hj
    · have := h.id_lt j hj
      omega
    · rw [List.mem_singleton.mp hj]
      exact Int.lt_succ _
  · change 1 ≤ l.maxIndex + 1
    omega
  · change l.maxIndex + 1 < 2 ^ 31
    omega
  · -- `length_le`: list and counter grow together
    change ((l.jobsList ++ [_]).length : Int) ≤ l.curSize + 1
    rw [List.length_append, List.length_singleton]
    push_cast
    omega
  · change l.curSize + 1 ≤ 100
    omega

theorem TableInv.addJob (h : TableInv l) (wp : ℕ → WaitResult) (cmd : Option String) (jPid : Int)
    (hnext : l.maxIndex < 2 ^ 31 - 1) : TableInv (l.addJob wp cmd jPid) := by
  have hr := h.removeFinishedJobs wp
  obtain heq | ⟨cmdLine, -, hfull, heq⟩ := addJob_cases wp cmd jPid l
  · rw [heq]
    exact hr
  · rw [heq]
    exact hr.push hfull ((h.removeFinishedJobs_maxIndex_le wp).trans_lt hnext) cmdLine jPid

/-- After a pass in which no `waitpid` answered `-1` the next id is one more than
the largest listed one. -/
theorem removeFinishedJobs_maxIndex (h : TableInv l) (wp : ℕ → WaitResult)
    (hok : (reapLoop wp 0 l.jobsList).2 = true) :
    (l.removeFinishedJobs wp).maxIndex = 1 + largestId (l.removeFinishedJobs wp).jobsList := by
  unfold removeFinishedJobs
  split
  · next hnil => simp [hnil, largestId]
  · dsimp only
    rw [hok, if_neg (by decide)]
    split
    · next hnil => simp [hnil, largestId]
    · next hne =>
      obtain ⟨hwrap, -, -⟩ := h.wrapInt_maxLoop hne (reapLoop_sublist wp 0 l.jobsList)
      exact hwrap.trans (add_comm _ _)

end JobsList

/-! ### Sessions -/

open JobsList

/-- No job was given the id `INT_MAX`. -/
def ShellState.IdsFit (s : ShellState) : Prop := ∀ e ∈ s.added, e.1.jobId < 2 ^ 31 - 1

/-- The invariant of a session: that of the table, that ids are at most the number
of additions, and that while no pass has failed every added job got the next id
after those listed then. -/
structure SessionInv (s : ShellState) : Prop where
  table : TableInv s.jobs
  maxIndex_le : s.jobs.maxIndex ≤ s.added.length + 1
  added_le : ∀ e ∈ s.added, e.1.jobId ≤ s.added.length
  added_id : s.reapFailed = false → ∀ e ∈ s.added, e.1.jobId = 1 + largestId e.2

theorem SessionInv.initial : SessionInv ShellState.initial where
  table := TableInv.initial
  maxIndex_le := le_refl _
  added_le := by simp [ShellState.initial]
  added_id := by simp [ShellState.initial]

variable {s : ShellState}

theorem SessionInv.removeFinishedJobs (h : SessionInv s) (wp : ℕ → WaitResult) :
    SessionInv (s.removeFinishedJobs wp) where
  table := h.table.removeFinishedJobs wp
  maxIndex_le := (h.table.removeFinishedJobs_maxIndex_le wp).trans h.maxIndex_le
  added_le := h.added_le
  added_id hok := h.added_id (Bool.or_eq_false_iff.mp hok).1

/-- The history after `addJob`: nothing new, or one job with the id `maxIndex` of
the table after the pass. -/
theorem addJob_added (wp : ℕ → WaitResult) (cmd : Option String) (jPid : Int) (s : ShellState) :
    ((s.addJob wp cmd jPid).jobs = s.jobs.removeFinishedJobs wp ∧
        (s.addJob wp cmd jPid).added = s.added) ∨
      ∃ cmdLine, (s.jobs.removeFinishedJobs wp).curSize ≠ maxJobsNum ∧
        (s.addJob wp cmd jPid).jobs =
          ⟨(s.jobs.removeFinishedJobs wp).jobsList ++ [⟨cmdLine, jPid,
              (s.jobs.removeFinishedJobs wp).maxIndex, (s.jobs.removeFinishedJobs wp).curSize⟩],
            wrapInt ((s.jobs.removeFinishedJobs wp).maxIndex + 1),
            wrapInt ((s.jobs.removeFinishedJobs wp).curSize + 1)⟩ ∧
        (s.addJob wp cmd jPid).added = s.added ++ [(⟨cmdLine, jPid,
            (s.jobs.removeFinishedJobs wp).maxIndex, (s.jobs.removeFinishedJobs wp).curSize⟩,
          (s.jobs.removeFinishedJobs wp).jobsList)] := by
  unfold ShellState.addJob
  dsimp only
  obtain heq | ⟨cmdLine, -, hfull, heq⟩ := addJob_cases wp cmd jPid s.jobs
  · refine Or.inl ⟨heq, ?_⟩
    rw [heq, List.drop_length]
    exact List.append_nil _
  · refine Or.inr ⟨cmdLine, hfull, heq, ?_⟩
    rw [heq, List.drop_left]
    rfl

theorem SessionInv.addJob (h : SessionInv s) (wp : ℕ → WaitResult) (cmd : Option String)
    (jPid : Int) (hfit : (s.addJob wp cmd jPid).IdsFit) : SessionInv (s.addJob wp cmd jPid) := by
  have hr := h.removeFinishedJobs wp
  have hreap : (s.addJob wp cmd jPid).reapFailed = (s.removeFinishedJobs wp).reapFailed := rfl
  obtain ⟨hjobs, hadded⟩ | ⟨cmdLine, hfull, hjobs, hadded⟩ := addJob_added wp cmd jPid s
  · -- no job has been added
    constructor
    · exact hjobs ▸ hr.table
    · rw [hjobs, hadded]
      exact hr.maxIndex_le
    · rw [hadded]
      exact h.added_le
    · rw [hadded, hreap]
      exact hr.added_id
  · have hid := hr.maxIndex_le
    have hpos := hr.table.maxIndex_pos
    have hlast := hfit _ (hadded ▸ List.mem_append_right _ List.mem_cons_self)
    change (s.jobs.removeFinishedJobs wp).maxIndex ≤ s.added.length + 1 at hid
    change 1 ≤ (s.jobs.removeFinishedJobs wp).maxIndex at hpos
    dsimp only at hlast
    constructor
    · rw [hjobs]
      exact hr.table.push hfull hlast cmdLine jPid
    · rw [hjobs, hadded, List.length_append, List.length_singleton]
      dsimp only
      rw [wrapInt_eq ⟨by omega, by omega⟩]
      push_cast
      omega
    · intro e he
      rw [hadded] at he ⊢
      rw [List.length_append, List.length_singleton]
      push_cast
      rcases List.mem_append.mp he with he | he
      · have := h.added_le e he
        omega
      · rw [List.mem_singleton.mp he]
        exact hid
    · -- the one new entry carries `maxIndex` of the reaped table
      intro hok e he
      rw [hadded] at he
      rw [hreap] at hok
      rcases List.mem_append.mp he with he | he
      · exact hr.added_id hok e he
      · obtain ⟨-, hpass⟩ := Bool.or_eq_false_iff.mp hok
        rw [List.mem_singleton.mp he]
        exact removeFinishedJobs_maxIndex h.table wp (by simpa using hpass)

theorem SessionInv.afterWait (h : SessionInv s) (res : FgWait) (jobId : Int) :
    SessionInv (s.afterWait res jobId) := by
  have hremoved : SessionInv { s with jobs := s.jobs.removeJobById jobId } := by
    refine ⟨h.table.removeJobById jobId, ?_, h.added_le, h.added_id⟩
    exact (h.table.removeJobById_maxIndex jobId).trans_le h.maxIndex_le
  cases res with
  | exited => exact hremoved
  | signaled => exact hremoved
  | failed => exact h
  | stopped => exact h

theorem SessionInv.foreground (h : SessionInv s) (n : ℕ) (arg : Option Int)
    (wp : ℕ → WaitResult) (res : FgWait) : SessionInv (s.foreground n arg wp res) := by
  unfold ShellState.foreground
  have hr := h.removeFinishedJobs wp
  dsimp only
  -- every way out leaves the table as the pass has left it, or ends in the wait
  split
  · split
    · exact hr
    · exact hr.afterWait res _
  · split
    · exact hr
    · split
      · exact hr
      · split
        · exact hr
        · split
          · exact hr
          · split
            · exact hr
            · exact hr.afterWait res _

/-- `fg` adds nothing to the history. -/
theorem foreground_added (n : ℕ) (arg : Option Int) (wp : ℕ → WaitResult) (res : FgWait)
    (s : ShellState) : (s.foreground n arg wp res).added = s.added := by
  have hwait : ∀ (s : ShellState) (jobId : Int), (s.afterWait res jobId).added = s.added := by
    intro s jobId
    cases res <;> rfl
  unfold ShellState.foreground
  dsimp only
  split
  · split
    · rfl
    · exact hwait _ _
  · split
    · rfl
    · split
      · rfl
      · split
        · rfl
        · split
          · rfl
          · split
            · rfl
            · exact hwait _ _

/-- The history only grows. -/
theorem executeCommand_added (line : CommandLine) (s : ShellState) :
    s.added <+: (executeCommand line s).added := by
  induction line generalizing s with
  | blank => exact List.prefix_refl _
  | builtin wp => exact List.prefix_refl _
  | jobs wp wp' => exact List.prefix_refl _
  | foreground wp n arg wp' res =>
    unfold Shell.executeCommand
    rw [foreground_added]
    exact List.prefix_refl _
  | external wp isBackground cmdLine sonPid wp' =>
    unfold Shell.executeCommand
    dsimp only
    split
    · exact List.prefix_refl _
    · split
      · exact List.prefix_append _ _
      · exact List.prefix_refl _
  | redirection wp redirected inner ih =>
    unfold Shell.executeCommand
    dsimp only
    split
    · exact ih (s.removeFinishedJobs wp)
    · exact List.prefix_refl _

/-- **Step lemma.** Every command line keeps the invariant of the session, unless
it gives out the id `INT_MAX`. -/
theorem SessionInv.executeCommand (h : SessionInv s) (line : CommandLine)
    (hfit : (executeCommand line s).IdsFit) : SessionInv (executeCommand line s) := by
  induction line generalizing s with
  | blank => exact h
  | builtin wp => exact h.removeFinishedJobs wp
  | jobs wp wp' => exact (h.removeFinishedJobs wp).removeFinishedJobs wp'
  | foreground wp n arg wp' res => exact (h.removeFinishedJobs wp).foreground n arg wp' res
  -- a failed `fork` adds no job, and neither does a command in the foreground
  | external wp isBackground cmdLine sonPid wp' =>
    have hr := h.removeFinishedJobs wp
    unfold Shell.executeCommand at hfit ⊢
    dsimp only at hfit ⊢
    split at hfit
    · next hfork =>
      rw [if_pos hfork]
      exact hr
    · next hfork =>
      rw [if_neg hfork]
      split at hfit
      · next hback =>
        rw [if_pos hback]
        exact hr.addJob wp' _ sonPid hfit
      · next hfore =>
        rw [if_neg hfore]
        exact hr
  -- the command inside is executed only if the redirection has worked
  | redirection wp redirected inner ih =>
    have hr := h.removeFinishedJobs wp
    unfold Shell.executeCommand at hfit ⊢
    dsimp only at hfit ⊢
    split at hfit
    · next hdone =>
      rw [if_pos hdone]
      exact ih hr hfit
    · next hdone =>
      rw [if_neg hdone]
      exact hr

theorem runSession_snoc (lines : List CommandLine) (line : CommandLine) :
    runSession (lines ++ [line]) = executeCommand line (runSession lines) := by
  unfold runSession
  rw [List.foldl_append]
  rfl

/-- **Run lemma.** The invariant holds after every session in which no job was
given the id `INT_MAX`. -/
theorem SessionInv.runSession (lines : List CommandLine) (hfit : (runSession lines).IdsFit) :
    SessionInv (runSession lines) := by
  induction lines using List.reverseRecOn with
  | nil => exact SessionInv.initial
  | append_singleton lines line ih =>
    rw [runSession_snoc] at hfit ⊢
    have hbefore : (Shell.runSession lines).IdsFit := fun e he =>
      hfit e ((executeCommand_added line _).subset he)
    exact (ih hbefore).executeCommand line hfit

theorem SessionInv.idsFit_addJob (h : SessionInv s) (hfit : s.IdsFit) (wp : ℕ → WaitResult)
    (cmd : Option String) (jPid : Int) (hfew : (s.addJob wp cmd jPid).added.length < 2 ^ 31 - 1) :
    (s.addJob wp cmd jPid).IdsFit := by
  intro e he
  obtain ⟨-, hadded⟩ | ⟨cmdLine, -, -, hadded⟩ := addJob_added wp cmd jPid s
  · rw [hadded] at he
    exact hfit e he
  · rw [hadded, List.length_append, List.length_singleton] at hfew
    rw [hadded] at he
    rcases List.mem_append.mp he with he | he
    · exact hfit e he
    · -- the new id is at most the number of additions, this one included
      have hid : (s.jobs.removeFinishedJobs wp).maxIndex ≤ s.added.length + 1 :=
        (h.removeFinishedJobs wp).maxIndex_le
      rw [List.mem_singleton.mp he]
      dsimp only
      omega

theorem SessionInv.idsFit_executeCommand (h : SessionInv s) (hfit : s.IdsFit) (line : CommandLine)
    (hfew : (Shell.executeCommand line s).added.length < 2 ^ 31 - 1) :
    (Shell.executeCommand line s).IdsFit := by
  induction line generalizing s with
  | blank => exact hfit
  | builtin wp => exact hfit
  | jobs wp wp' => exact hfit
  | foreground wp n arg wp' res =>
    intro e he
    unfold Shell.executeCommand at he
    rw [foreground_added] at he
    exact hfit e he
  | external wp isBackground cmdLine sonPid wp' =>
    unfold Shell.executeCommand at hfew ⊢
    dsimp only at hfew ⊢
    split
    · exact hfit
    · next hfork =>
      rw [if_neg hfork] at hfew
      split
      · next hback =>
        rw [if_pos hback] at hfew
        exact (h.removeFinishedJobs wp).idsFit_addJob hfit wp' _ sonPid hfew
      · exact hfit
  | redirection wp redirected inner ih =>
    unfold Shell.executeCommand at hfew ⊢
    dsimp only at hfew ⊢
    split
    · next hdone =>
      rw [if_pos hdone] at hfew
      exact ih (h.removeFinishedJobs wp) hfit hfew
    · exact hfit

/-- It takes `2 ^ 31 - 1` additions to give out the id `INT_MAX`. -/
theorem idsFit_of_added_lt (lines : List CommandLine)
    (hfew : (runSession lines).added.length < 2 ^ 31 - 1) : (runSession lines).IdsFit := by
  induction lines using List.reverseRecOn with
  | nil => exact fun e he => absurd he List.not_mem_nil
  | append_singleton lines line ih =>
    have hadded := executeCommand_added line (runSession lines)
    rw [runSession_snoc] at hfew ⊢
    have hbefore := ih (hadded.length_le.trans_lt hfew)
    exact (SessionInv.runSession lines hbefore).idsFit_executeCommand hbefore line hfew

/-- **The job table.** After every session in which no job was given the id
`INT_MAX`, the ids of the listed jobs are strictly increasing in list order, at
least `1` and below `maxIndex`, at most `maxJobsNum` jobs are listed, and a
`removeFinishedJobs` pass from there drops only jobs whose `waitpid` reported them
finished. While no `WNOHANG` wait has answered `-1`, each job was added with the id
one above the largest listed then. -/
theorem jobTable_invariant (lines : List CommandLine) (hfit : (runSession lines).IdsFit) :
    ((runSession lines).jobs.jobsList.Pairwise (fun i j => i.jobId < j.jobId)) ∧
    (∀ j ∈ (runSession lines).jobs.jobsList,
      1 ≤ j.jobId ∧ j.jobId < (runSession lines).jobs.maxIndex) ∧
    ((runSession lines).jobs.jobsList.length : Int) ≤ maxJobsNum ∧
    (∀ (wp : ℕ → WaitResult) (i : ℕ) (j : JobEntry),
      (runSession lines).jobs.jobsList[i]? = some j →
        j ∈ ((runSession lines).jobs.removeFinishedJobs wp).jobsList ∨ wp i = .finished) ∧
    ((runSession lines).reapFailed = false →
      ∀ e ∈ (runSession lines).added, e.1.jobId = 1 + largestId e.2) := by
  have h := SessionInv.runSession lines hfit
  refine ⟨h.table.ids_increasing, fun j hj => ⟨h.table.id_pos j hj, h.table.id_lt j hj⟩,
    h.table.length_le.trans h.table.curSize_le, ?_, h.added_id⟩
  intro wp i j hj
  exact removeFinishedJobs_keeps wp _ i j hj

/-! ### Ids grow with the history -/

/-- The older of two jobs has finished. -/
def olderFinished : ℕ → WaitResult
  | 0 => .finished
  | _ => .running

/-- Two background commands, and then `n` more, before each of which the older of
the two listed jobs finishes. The system gives the pid of a job that has finished
to the next child. -/
def relay : ℕ → List CommandLine
  | 0 => [.external (fun _ => .running) true "sleep 9&" 1000 (fun _ => .running),
      .external (fun _ => .running) true "sleep 9&" 1001 (fun _ => .running)]
  | n + 1 => relay n ++
      [.external olderFinished true "sleep 9&" (1000 + n % 2) (fun _ => .running)]

/-- A pass over two jobs of which the older has finished. -/
theorem removeFinishedJobs_olderFinished (e e' : JobEntry) (m c : Int) (h : 1 ≤ e'.jobId)
    (hfit : e'.jobId < 2 ^ 31 - 1) :
    JobsList.removeFinishedJobs olderFinished ⟨[e, e'], m, c⟩ = ⟨[e'], e'.jobId + 1, 1⟩ := by
  have hwrap : wrapInt (e'.jobId + 1) = e'.jobId + 1 := wrapInt_eq ⟨by omega, by omega⟩
  simp [JobsList.removeFinishedJobs, JobsList.reapLoop, olderFinished, JobsList.maxLoop, h, hwrap]

/-- A pass over one job that runs. -/
theorem removeFinishedJobs_single (e : JobEntry) (m c : Int) (h : 1 ≤ e.jobId)
    (hfit : e.jobId < 2 ^ 31 - 1) :
    JobsList.removeFinishedJobs (fun _ => .running) ⟨[e], m, c⟩ = ⟨[e], e.jobId + 1, 1⟩ := by
  have hwrap : wrapInt (e.jobId + 1) = e.jobId + 1 := wrapInt_eq ⟨by omega, by omega⟩
  simp [JobsList.removeFinishedJobs, JobsList.reapLoop, JobsList.maxLoop, h, hwrap]

/-- Two jobs are listed at the end, with the ids `n + 1` and `n + 2`. -/
theorem runSession_relay (n : ℕ) (hn : (n : Int) + 2 < 2 ^ 31) :
    ∃ p i, (runSession (relay n)).jobs =
      ⟨[⟨"sleep 9&", p, n + 1, i⟩, ⟨"sleep 9&", 1000 + (n + 1) % 2, n + 2, 1⟩],
        wrapInt (n + 3), 2⟩ := by
  induction n with
  | zero => exact ⟨1000, 0, by decide⟩
  | succ n ih =>
    push_cast at hn
    obtain ⟨p, i, ih⟩ := ih (by omega)
    refine ⟨1000 + (n + 1) % 2, 1, ?_⟩
    have hson : (1000 + (n : Int) % 2) ≠ -1 := by omega
    unfold relay
    rw [runSession_snoc]
    -- one job is left when the next one is added
    simp only [executeCommand, ShellState.removeFinishedJobs, ShellState.addJob, if_neg hson, ih,
      JobsList.addJob, if_true]
    rw [removeFinishedJobs_olderFinished _ _ _ _ (by dsimp only; omega) (by dsimp only; omega),
      removeFinishedJobs_single _ _ _ (by dsimp only; omega) (by dsimp only; omega),
      if_neg (by dsimp only; decide)]
    have htwo : wrapInt (1 + 1) = 2 := by decide
    have hmod : (n : Int) % 2 = (n + 1 + 1) % 2 := by omega
    have hid : (n : Int) + 2 + 1 = n + 1 + 2 := by omega
    have hnext : (n : Int) + 2 + 1 + 1 = n + 1 + 3 := by omega
    simp only [List.singleton_append, htwo]
    push_cast
    rw [hnext, hid, ← hmod]
    simp only [add_assoc, Int.reduceAdd]

/-- **The next id overflows.** After enough background commands whose predecessors
finish one by one, the last one has the id `INT_MAX`, and `maxIndex` is below it. -/
theorem jobTable_overflows :
    ∃ lines, ∃ j ∈ (runSession lines).jobs.jobsList,
      ¬ j.jobId < (runSession lines).jobs.maxIndex := by
  obtain ⟨n, hn⟩ : ∃ n : ℕ, (n : Int) = 2 ^ 31 - 3 := ⟨(2 ^ 31 - 3 : Int).toNat, by norm_num⟩
  obtain ⟨p, i, hjobs⟩ := runSession_relay n (by omega)
  have hnext : (n : Int) + 3 = 2 ^ 31 := by omega
  refine ⟨relay n, ⟨"sleep 9&", 1000 + (n + 1) % 2, n + 2, 1⟩, ?_, ?_⟩
  · rw [hjobs]
    exact List.mem_cons_of_mem _ List.mem_cons_self
  · rw [hjobs, hnext, wrapInt_two_pow]
    dsimp only
    omega

/-- Three background commands, the first of which has finished. -/
theorem jobTable_invariant_relay :
    (runSession (relay 1)).jobs.jobsList.map JobEntry.jobId = [2, 3] ∧
      (runSession (relay 1)).added.map (fun e => e.1.jobId) = [1, 2, 3] ∧
      (∀ j ∈ (runSession (relay 1)).jobs.jobsList,
        1 ≤ j.jobId ∧ j.jobId < (runSession (relay 1)).jobs.maxIndex) ∧
      ∀ e ∈ (runSession (relay 1)).added, e.1.jobId = 1 + largestId e.2 := by
  have hfit := idsFit_of_added_lt (relay 1) (by decide)
  exact ⟨by decide, by decide, (jobTable_invariant (relay 1) hfit).2.1,
    (jobTable_invariant (relay 1) hfit).2.2.2.2 (by decide)⟩

end Shell
end OsHomework
