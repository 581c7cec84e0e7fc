import OsHomework.Lib.Stoi
import OsHomework.Shell.Foreground

/-!
# The job id given to `fg`

`ForegroundCommand::execute` as one call, from the text of its parameters to what
it prints, waits for and leaves behind. `Shell.Foreground` has the same command
as steps, for the handler that may run between them; here its argument is read.

Three range checks stand in front of the lookup of the job. Every listed id is at
least `1` and below `max_index` in every session, so two of them refuse no listed
job. The third compares the id with `MAX_JOBS_NUM`, which bounds the number of
jobs but not their ids: ids grow with the history of the table
(`runSession_relay`), and a job with a larger id cannot be brought back.
-/

namespace OsHomework
namespace Shell

open Stoi

/-! ### The command -/

/-- What one `fg` did. -/
structure FgRun where
  shell : SmallShell
  /-- The pid that was installed and waited for. -/
  waited : Option Int
  stdout : List String
  stderr : List String

/-- `ForegroundCommand::execute`. -/
def fgExecute (parametrs : List String) (wp : ℕ → WaitResult) (res : FgWait) (sh : SmallShell) :
    FgRun :=
  let sh := { sh with jobs := sh.jobs.removeFinishedJobs wp }
  match selectJob parametrs.length (parametrs[1]?.bind fun a => entire a.toList) sh.jobs with
  | .error e => ⟨sh, none, [], [e]⟩
  | .ok (jobId, j) =>
    { shell := removeWaited res jobId (sh.changeFGPid j.jobPid).returnSmashPidToFG
      waited := some j.jobPid
      stdout := [j.cmd ++ " " ++ toString j.jobPid]
      stderr := if res = .failed then ["smash error: waitpid failed"] else [] }

/-- On the table the call does what `ShellState.foreground` does. -/
theorem fgExecute_jobs (parametrs : List String) (wp : ℕ → WaitResult) (res : FgWait)
    (sh : SmallShell) (s : ShellState) (hs : s.jobs = sh.jobs) :
    (fgExecute parametrs wp res sh).shell.jobs =
      (s.foreground parametrs.length (parametrs[1]?.bind fun a => entire a.toList) wp
        res).jobs := by
  rw [foreground_eq_selectJob]
  unfold fgExecute ShellState.removeFinishedJobs
  rw [hs]
  dsimp only
  cases selectJob parametrs.length (parametrs[1]?.bind fun a => entire a.toList)
      (sh.jobs.removeFinishedJobs wp) with
  | error e => rfl
  | ok p => cases res <;> rfl

/-! ### The job that is looked up -/

namespace JobsList

variable {l : JobsList}

/-- With increasing ids the job with a given id is the only one. -/
theorem TableInv.eq_of_jobId_eq (h : TableInv l) {i j : JobEntry} (hi : i ∈ l.jobsList)
    (hj : j ∈ l.jobsList) (hid : i.jobId = j.jobId) : i = j := by
  have hnodup : (l.jobsList.map JobEntry.jobId).Nodup :=
    List.pairwise_map.mpr (h.ids_increasing.imp fun hlt => ne_of_lt hlt)
  exact List.inj_on_of_nodup_map hnodup hi hj hid

theorem TableInv.getJobById_of_mem (h : TableInv l) {j : JobEntry} (hj : j ∈ l.jobsList) :
    l.getJobById j.jobId = some j := by
  cases hget : l.getJobById j.jobId with
  | none => simpa using List.find?_eq_none.mp hget j hj
  | some i =>
    have hid : i.jobId = j.jobId := by simpa using List.find?_some hget
    rw [h.eq_of_jobId_eq (mem_of_getJobById hget) hj hid]

/-- `removeJobById` erases that job. -/
theorem TableInv.removeJobById_jobsList (h : TableInv l) {j : JobEntry} (hj : j ∈ l.jobsList) :
    (l.removeJobById j.jobId).jobsList = l.jobsList.erase j := by
  have hany : l.jobsList.any (fun i => i.jobId = j.jobId) = true :=
    List.any_eq_true.mpr ⟨j, hj, by simp⟩
  have herase : l.jobsList.eraseP (fun i => i.jobId = j.jobId) = l.jobsList.erase j := by
    obtain ⟨i, js, js', hbefore, hid, hjs, heq⟩ :=
      List.exists_of_eraseP hj (p := fun i => i.jobId = j.jobId) (by simp)
    have hmem : i ∈ l.jobsList := by simp [hjs]
    -- the job that is erased is the one with this id
    obtain rfl : i = j := h.eq_of_jobId_eq hmem hj (by simpa using hid)
    have hnot : i ∉ js := fun hi => hbefore i hi (by simp)
    rw [heq, hjs, List.erase_append_right _ hnot, List.erase_cons_head]
  unfold JobsList.removeJobById
  rw [if_pos hany]
  dsimp only
  rw [herase]
  split <;> rfl

end JobsList

/-- `fg` with a listed id that is no larger than `MAX_JOBS_NUM` picks that job. -/
theorem selectJob_of_mem {jobs : JobsList} (h : JobsList.TableInv jobs) {j : JobEntry}
    (hj : j ∈ jobs.jobsList) (hmax : j.jobId ≤ maxJobsNum) :
    selectJob 2 (some j.jobId) jobs = .ok (j.jobId, j) := by
  have hpos := h.id_pos j hj
  have hlt := h.id_lt j hj
  have hrange : ¬ (j.jobId < 1 ∨ j.jobId > maxJobsNum ∨ j.jobId > jobs.maxIndex) := by omega
  unfold selectJob
  rw [if_neg (by decide)]
  dsimp only
  rw [if_neg hrange, h.getJobById_of_mem hj]
  rfl

/-- It refuses an id that no job has, and one that is larger. -/
theorem selectJob_refused {jobs : JobsList} {v : Int}
    (h : maxJobsNum < v ∨ ∀ j ∈ jobs.jobsList, j.jobId ≠ v) :
    ∃ e, selectJob 2 (some v) jobs = .error e := by
  unfold selectJob
  rw [if_neg (by decide)]
  dsimp only
  split
  · exact ⟨_, rfl⟩
  · next hrange =>
    -- inside the range it is the lookup that fails
    have hnone : jobs.getJobById v = none := by
      rw [JobsList.getJobById, List.find?_eq_none]
      intro j hj
      simpa using h.resolve_left (by omega) j hj
    rw [hnone]
    exact ⟨_, rfl⟩

/-! ### What `fg` should do with its argument -/

/-- `fg a` finds exactly the listed jobs, `jobs` being the table after the pass. -/
structure FgExact (a : String) (jobs : JobsList) (sh : SmallShell) (run : FgRun) : Prop where
  /-- It waits iff the argument is an integer and the id of a listed job. -/
  waits : run.waited.isSome = true ↔ ∃ v, Numeral a.toList v ∧ ∃ j ∈ jobs.jobsList, j.jobId = v
  /-- It then waits for this job, and the table loses at most this one. -/
  acts : ∀ j ∈ jobs.jobsList, Numeral a.toList j.jobId → run.waited = some j.jobPid ∧
    (run.shell.jobs.jobsList = jobs.jobsList ∨ run.shell.jobs.jobsList = jobs.jobsList.erase j)
  /-- Otherwise it reports an error and changes nothing. -/
  refuses : (¬ ∃ v, Numeral a.toList v ∧ ∃ j ∈ jobs.jobsList, j.jobId = v) →
    run.stderr ≠ [] ∧ run.shell = { sh with jobs := jobs }

section

variable (sh : SmallShell) (res : FgWait) {wp : ℕ → WaitResult} {a : String}

/-- A refusal prints an error and leaves the shell as the pass has left it. -/
theorem fgExecute_of_error {e : String}
    (h : selectJob 2 (entire a.toList) (sh.jobs.removeFinishedJobs wp) = .error e) :
    fgExecute ["fg", a] wp res sh =
      ⟨{ sh with jobs := sh.jobs.removeFinishedJobs wp }, none, [], [e]⟩ := by
  unfold fgExecute
  dsimp only [List.length_cons, List.length_nil, List.getElem?_cons_succ, List.getElem?_cons_zero,
    Option.bind_some]
  rw [h]

/-- The job that was picked is waited for. -/
theorem fgExecute_of_ok {jobId : Int} {j : JobEntry}
    (h : selectJob 2 (entire a.toList) (sh.jobs.removeFinishedJobs wp) = .ok (jobId, j)) :
    (fgExecute ["fg", a] wp res sh).waited = some j.jobPid ∧
      ((fgExecute ["fg", a] wp res sh).shell.jobs = sh.jobs.removeFinishedJobs wp ∨
        (fgExecute ["fg", a] wp res sh).shell.jobs =
          (sh.jobs.removeFinishedJobs wp).removeJobById jobId) := by
  unfold fgExecute
  dsimp only [List.length_cons, List.length_nil, List.getElem?_cons_succ, List.getElem?_cons_zero,
    Option.bind_some]
  rw [h]
  cases res with
  | exited | signaled => exact ⟨rfl, Or.inr rfl⟩
  | failed | stopped => exact ⟨rfl, Or.inl rfl⟩

/-- A job with an id up to `MAX_JOBS_NUM` is found. -/
theorem FgExact.of_listed (h : JobsList.TableInv sh.jobs) {j : JobEntry}
    (hj : j ∈ (sh.jobs.removeFinishedJobs wp).jobsList) (ha : Numeral a.toList j.jobId)
    (hmax : j.jobId ≤ maxJobsNum) :
    FgExact a (sh.jobs.removeFinishedJobs wp) sh (fgExecute ["fg", a] wp res sh) := by
  have hinv := h.removeFinishedJobs wp
  have hsel := selectJob_of_mem hinv hj hmax
  rw [← (entire_eq_some_iff a.toList j.jobId).mpr ha] at hsel
  obtain ⟨hwaited, hshell⟩ := fgExecute_of_ok sh res hsel
  refine ⟨?_, ?_, ?_⟩
  · rw [hwaited]
    exact iff_of_true rfl ⟨j.jobId, ha, j, hj, rfl⟩
  · intro i hi hi'
    -- the argument has one value, and one job has it as its id
    obtain rfl : i = j := hinv.eq_of_jobId_eq hi hj (hi'.unique ha)
    refine ⟨hwaited, hshell.imp (fun hs => by rw [hs]) fun hs => ?_⟩
    rw [hs, hinv.removeJobById_jobsList hi]
  · intro hnone
    exact absurd ⟨j.jobId, ha, j, hj, rfl⟩ hnone

/-- Anything that names no listed job is refused. -/
theorem FgExact.of_unlisted
    (hnone : ¬ ∃ v, Numeral a.toList v ∧
      ∃ j ∈ (sh.jobs.removeFinishedJobs wp).jobsList, j.jobId = v) :
    FgExact a (sh.jobs.removeFinishedJobs wp) sh (fgExecute ["fg", a] wp res sh) := by
  have herr : ∃ e, selectJob 2 (entire a.toList) (sh.jobs.removeFinishedJobs wp) = .error e := by
    cases hint : entire a.toList with
    | none => exact ⟨_, rfl⟩
    | some v =>
      refine selectJob_refused (Or.inr fun j hj hid => hnone ?_)
      exact ⟨v, (entire_eq_some_iff a.toList v).mp hint, j, hj, hid⟩
  obtain ⟨e, he⟩ := herr
  rw [fgExecute_of_error sh res he]
  refine ⟨iff_of_false (by simp) hnone, ?_, ?_⟩
  · intro j hj hj'
    exact absurd ⟨j.jobId, hj', j, hj, rfl⟩ hnone
  · intro _
    exact ⟨List.cons_ne_nil _ _, rfl⟩

/-- A listed job with a larger id is refused as if it did not exist. -/
theorem not_fgExact_of_large {j : JobEntry}
    (hj : j ∈ (sh.jobs.removeFinishedJobs wp).jobsList) (ha : Numeral a.toList j.jobId)
    (hmax : maxJobsNum < j.jobId) :
    ¬ FgExact a (sh.jobs.removeFinishedJobs wp) sh (fgExecute ["fg", a] wp res sh) := by
  intro h
  obtain ⟨e, he⟩ := @selectJob_refused (sh.jobs.removeFinishedJobs wp) j.jobId (Or.inl hmax)
  rw [← (entire_eq_some_iff a.toList j.jobId).mpr ha] at he
  have hwaited := (h.acts j hj ha).1
  rw [fgExecute_of_error sh res he] at hwaited
  cases hwaited

end

/-- **`fg` with a job id.** In every session in which no job was given the id `INT_MAX`, `fg a`
finds exactly the listed jobs, unless `a` is an integer above `MAX_JOBS_NUM` that is the id of a
listed job. -/
theorem fg_exact_iff (lines : List CommandLine) (hfit : (runSession lines).IdsFit)
    (pid fgPid : Int) (a : String) (wp : ℕ → WaitResult) (res : FgWait) :
    FgExact a ((runSession lines).jobs.removeFinishedJobs wp)
        ⟨pid, fgPid, (runSession lines).jobs⟩
        (fgExecute ["fg", a] wp res ⟨pid, fgPid, (runSession lines).jobs⟩) ↔
      ¬ ∃ v, Numeral a.toList v ∧ maxJobsNum < v ∧
        ∃ j ∈ ((runSession lines).jobs.removeFinishedJobs wp).jobsList, j.jobId = v := by
  have hinv := (SessionInv.runSession lines hfit).table
  constructor
  · rintro h ⟨v, ha, hmax, j, hj, rfl⟩
    exact not_fgExact_of_large ⟨pid, fgPid, (runSession lines).jobs⟩ res hj ha hmax h
  · intro h
    by_cases hlisted : ∃ v, Numeral a.toList v ∧
        ∃ j ∈ ((runSession lines).jobs.removeFinishedJobs wp).jobsList, j.jobId = v
    · obtain ⟨v, ha, j, hj, rfl⟩ := hlisted
      -- of the three range checks only the one against `MAX_JOBS_NUM` can refuse a listed job
      have hmax : j.jobId ≤ maxJobsNum := by
        by_contra hlt
        exact h ⟨j.jobId, ha, not_le.mp hlt, j, hj, rfl⟩
      exact FgExact.of_listed ⟨pid, fgPid, (runSession lines).jobs⟩ res hinv hj ha hmax
    · exact FgExact.of_unlisted ⟨pid, fgPid, (runSession lines).jobs⟩ res hlisted

/-- `fg 3` after three background commands, of which the first has finished: the job is listed, its
id is small, and it is found. -/
theorem fg_exact_iff_relay :
    FgExact "3" ((runSession (relay 1)).jobs.removeFinishedJobs fun _ => .running)
      ⟨500, 500, (runSession (relay 1)).jobs⟩
      (fgExecute ["fg", "3"] (fun _ => .running) .exited
        ⟨500, 500, (runSession (relay 1)).jobs⟩) := by
  refine (fg_exact_iff (relay 1) (idsFit_of_added_lt _ (by decide)) 500 500 "3" _ _).mpr ?_
  rintro ⟨v, ha, hmax, -⟩
  have harg : Numeral "3".toList 3 := (stoi_entire_iff _ _).mp (by decide)
  rw [ha.unique harg] at hmax
  exact absurd hmax (by decide)

/-- After the hundred and first background command the job with the id `101` is
listed, and `fg 101` reports that it does not exist. -/
theorem fg_refuses_listed_job :
    (∃ j ∈ ((runSession (relay 99)).jobs.removeFinishedJobs fun _ => .running).jobsList,
      j.jobId = 101) ∧
    ¬ FgExact "101" ((runSession (relay 99)).jobs.removeFinishedJobs fun _ => .running)
      ⟨500, 500, (runSession (relay 99)).jobs⟩
      (fgExecute ["fg", "101"] (fun _ => .running) .exited
        ⟨500, 500, (runSession (relay 99)).jobs⟩) := by
  have harg : Numeral "101".toList 101 := (stoi_entire_iff _ _).mp (by decide)
  obtain ⟨p, i, hjobs⟩ := runSession_relay 99 (by decide)
  -- only what the table holds matters from here on
  generalize runSession (relay 99) = s at hjobs ⊢
  have hmem : (⟨"sleep 9&", 1000, 101, 1⟩ : JobEntry) ∈
      (s.jobs.removeFinishedJobs fun _ => .running).jobsList := by
    rw [hjobs]
    simp [JobsList.removeFinishedJobs, JobsList.reapLoop]
  refine ⟨⟨_, hmem, rfl⟩, ?_⟩
  exact not_fgExact_of_large ⟨500, 500, s.jobs⟩ .exited hmem harg (by decide)

end Shell
end OsHomework
