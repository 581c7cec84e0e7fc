import OsHomework.Lib.Transition
import OsHomework.Shell.Jobs

/-!
# The foreground process and Ctrl-C

`foreground_command_pid` of `SmallShell` names the process that `ctrlCHandler`
kills. The main flow writes it around every blocking wait: an external command in
the foreground and both forms of `fg` install the pid they are about to wait for
(`changeFGPid`) and restore the pid of the shell afterwards
(`returnSmashPidToFG`); the handler restores it too once it has killed.

The shell is a step relation. One step is one call of the main flow, with
whatever the system answers: `fork` may fail, `waitpid` may fail or report a
child that exited, was signaled or was stopped. `ctrlCHandler` is a step of its
own that is possible in every state, so it can run between any two steps of the
main flow, and as often as it likes while a `waitpid` blocks.

The invariant says where the field can differ from the pid of the shell
(`Pc.window`): only from the call of `changeFGPid` to the call of
`returnSmashPidToFG` of the same command, and there it holds the pid that this
command installed or, after a Ctrl-C, the pid of the shell.
-/

namespace OsHomework
namespace Shell

/-! ### The fields and their methods -/

/-- `SmallShell`, without the prompt and the last directory. -/
structure SmallShell where
  pid : Int
  foregroundCommandPid : Int
  jobs : JobsList

namespace SmallShell

/-- The constructor: `pid` is what `getpid` answers. -/
def initial (pid : Int) : SmallShell := ⟨pid, pid, JobsList.initial⟩

/-- `getFGPid`. -/
def getFGPid (sh : SmallShell) : Int := sh.foregroundCommandPid

/-- `changeFGPid`. -/
def changeFGPid (newFgPid : Int) (sh : SmallShell) : SmallShell :=
  { sh with foregroundCommandPid := newFgPid }

/-- `returnSmashPidToFG`. -/
def returnSmashPidToFG (sh : SmallShell) : SmallShell :=
  { sh with foregroundCommandPid := sh.pid }

/-- `isSmashTheOnlyProcessRunningFG`. -/
def isSmashTheOnlyProcessRunningFG (sh : SmallShell) : Bool := sh.foregroundCommandPid = sh.pid

end SmallShell

/-- What one run of `ctrlCHandler` did. -/
structure Handled where
  shell : SmallShell
  /-- The pid that was sent `SIGKILL`, when one was. -/
  target : Option Int
  output : List String

/-- `ctrlCHandler`. `killed` tells whether `kill` succeeded. -/
def ctrlCHandler (killed : Bool) (sh : SmallShell) : Handled :=
  if sh.isSmashTheOnlyProcessRunningFG then ⟨sh, none, ["smash: got ctrl-C"]⟩
  -- the signal was sent or refused; either way it was aimed at this pid
  else if killed = false then
    ⟨sh, some sh.getFGPid, ["smash: got ctrl-C", "smash error: kill failed\n"]⟩
  else
    ⟨sh.returnSmashPidToFG, some sh.getFGPid,
      ["smash: got ctrl-C", "smash: process " ++ toString sh.getFGPid ++ " was killed"]⟩

/-! ### The job `fg` picks -/

/-- The checks of `ForegroundCommand::execute` up to the job it brings to the
foreground, with the text of the error otherwise. -/
def selectJob (numOfParams : ℕ) (jobIdArg : Option Int) (jobs : JobsList) :
    Except String (Int × JobEntry) :=
  if numOfParams = 1 then
    match jobs.getLastJob with
    | (_, none) => .error "smash error: fg: jobs list is empty"
    | (jobId, some j) => .ok (jobId, j)
  else
    match jobIdArg with
    | none => .error "smash error: fg: invalid arguments"
    | some jobId =>
      if jobId < 1 ∨ jobId > maxJobsNum ∨ jobId > jobs.maxIndex then
        .error ("smash error: fg: job-id " ++ toString jobId ++ " does not exist")
      else
        match jobs.getJobById jobId with
        | none => .error ("smash error: fg: job-id " ++ toString jobId ++ " does not exist")
        | some j =>
          if numOfParams > 2 then .error "smash error: fg: invalid arguments"
          else .ok (jobId, j)

/-! ### The step relation -/

/-- The command lines the shell is given. -/
inductive Line
  | external (isBackground : Bool) (cmdLine : String)
  | foreground (numOfParams : ℕ) (jobIdArg : Option Int)
  deriving DecidableEq, Repr

/-- The next call of the main flow. -/
inductive Pc
  /-- `std::cout << smash.getPrompt()`. -/
  | prompt
  /-- `std::getline`. -/
  | getline
  /-- `removeFinishedJobs` of `executeCommand`. -/
  | reap (line : Line)
  /-- `fork` of an external command. -/
  | fork (isBackground : Bool) (cmdLine : String)
  /-- `addJob` of a background command. -/
  | addJob (cmdLine : String) (sonPid : Int)
  /-- `changeFGPid` of an external command. -/
  | change (sonPid : Int)
  /-- `waitpid` of an external command. -/
  | wait (sonPid : Int)
  /-- `returnSmashPidToFG` of an external command, after its wait. -/
  | restore (sonPid : Int) (res : FgWait)
  /-- `removeFinishedJobs` of `fg`. -/
  | fgReap (numOfParams : ℕ) (jobIdArg : Option Int)
  /-- The checks of `fg`. -/
  | fgSelect (numOfParams : ℕ) (jobIdArg : Option Int)
  | fgChange (jobId pid : Int)
  | fgWait (jobId pid : Int)
  | fgRestore (jobId pid : Int) (res : FgWait)
  /-- `removeJobById`, when the job is over. -/
  | fgRemove (jobId : Int) (res : FgWait)
  deriving DecidableEq

/-- The shell and where it is. -/
structure FgState where
  shell : SmallShell
  pc : Pc
  /-- History: the pid the current command line has given to `changeFGPid`. -/
  installed : Option Int

/-- A label: a call of the main flow, or one run of the handler with the pid it
sent `SIGKILL` to. -/
inductive FgLabel
  | main
  | sigint (target : Option Int)
  deriving DecidableEq, Repr

/-- What `fg` does with the job after its wait. -/
def removeWaited (res : FgWait) (jobId : Int) (sh : SmallShell) : SmallShell :=
  match res with
  | .exited | .signaled => { sh with jobs := sh.jobs.removeJobById jobId }
  | .failed | .stopped => sh

/-- One call of the main flow, or one run of the handler. -/
inductive FgStep : FgState → FgLabel → FgState → Prop
  -- the handler may run between any two calls
  | sigint {s} (killed : Bool) :
      FgStep s (.sigint (ctrlCHandler killed s.shell).target)
        { s with shell := (ctrlCHandler killed s.shell).shell }
  | prompt {s} : s.pc = .prompt → FgStep s .main { s with pc := .getline }
  | getline {s} (line : Line) : s.pc = .getline →
      FgStep s .main { s with pc := .reap line, installed := none }
  | reapExternal {s b c} (wp : ℕ → WaitResult) : s.pc = .reap (.external b c) →
      FgStep s .main
        { s with shell := { s.shell with jobs := s.shell.jobs.removeFinishedJobs wp },
                 pc := .fork b c }
  | reapForeground {s n arg} (wp : ℕ → WaitResult) : s.pc = .reap (.foreground n arg) →
      FgStep s .main
        { s with shell := { s.shell with jobs := s.shell.jobs.removeFinishedJobs wp },
                 pc := .fgReap n arg }
  -- `fork failed` is reported and the command is over
  | forkFailed {s b c} : s.pc = .fork b c → FgStep s .main { s with pc := .prompt }
  | forkBackground {s c} (sonPid : Int) (hson : 0 < sonPid) : s.pc = .fork true c →
      FgStep s .main { s with pc := .addJob c sonPid }
  | forkForeground {s c} (sonPid : Int) (hson : 0 < sonPid) : s.pc = .fork false c →
      FgStep s .main { s with pc := .change sonPid }
  | addJob {s c sonPid} (wp : ℕ → WaitResult) : s.pc = .addJob c sonPid →
      FgStep s .main
        { s with shell := { s.shell with jobs := s.shell.jobs.addJob wp (some c) sonPid },
                 pc := .prompt }
  | change {s sonPid} : s.pc = .change sonPid →
      FgStep s .main
        { shell := s.shell.changeFGPid sonPid, pc := .wait sonPid, installed := some sonPid }
  -- the command may run for long, the handler any number of times meanwhile
  | wait {s sonPid} (res : FgWait) : s.pc = .wait sonPid →
      FgStep s .main { s with pc := .restore sonPid res }
  -- the field is restored before the answer of `waitpid` is looked at
  | restore {s sonPid res} : s.pc = .restore sonPid res →
      FgStep s .main { s with shell := s.shell.returnSmashPidToFG, pc := .prompt }
  | fgReap {s n arg} (wp : ℕ → WaitResult) : s.pc = .fgReap n arg →
      FgStep s .main
        { s with shell := { s.shell with jobs := s.shell.jobs.removeFinishedJobs wp },
                 pc := .fgSelect n arg }
  -- `fg` has checked and failed before it touches the field
  | fgRefused {s n arg e} : s.pc = .fgSelect n arg → selectJob n arg s.shell.jobs = .error e →
      FgStep s .main { s with pc := .prompt }
  | fgSelected {s n arg jobId j} : s.pc = .fgSelect n arg →
      selectJob n arg s.shell.jobs = .ok (jobId, j) →
      FgStep s .main { s with pc := .fgChange jobId j.jobPid }
  | fgChange {s jobId pid} : s.pc = .fgChange jobId pid →
      FgStep s .main
        { shell := s.shell.changeFGPid pid, pc := .fgWait jobId pid, installed := some pid }
  | fgWait {s jobId pid} (res : FgWait) : s.pc = .fgWait jobId pid →
      FgStep s .main { s with pc := .fgRestore jobId pid res }
  | fgRestore {s jobId pid res} : s.pc = .fgRestore jobId pid res →
      FgStep s .main { s with shell := s.shell.returnSmashPidToFG, pc := .fgRemove jobId res }
  | fgRemove {s jobId res} : s.pc = .fgRemove jobId res →
      FgStep s .main { s with shell := removeWaited res jobId s.shell, pc := .prompt }

/-- The shell whose pid is `pid`. -/
def fgSystem (pid : Int) : System FgState FgLabel where
  init s := s = ⟨SmallShell.initial pid, .prompt, none⟩
  step := FgStep

/-! ### Where the pids in the table come from -/

namespace JobsList

theorem mem_of_getJobById {jobId : Int} {l : JobsList} {j : JobEntry}
    (h : l.getJobById jobId = some j) : j ∈ l.jobsList :=
  List.mem_of_find?_eq_some h

theorem mem_removeJobById {jobId : Int} {l : JobsList} {j : JobEntry}
    (h : j ∈ (l.removeJobById jobId).jobsList) : j ∈ l.jobsList := by
  unfold removeJobById at h
  split at h
  · dsimp only at h
    split at h <;> exact List.mem_of_mem_eraseP h
  · exact h

theorem mem_addJob {wp : ℕ → WaitResult} {cmd : String} {jPid : Int} {l : JobsList} {j : JobEntry}
    (h : j ∈ (l.addJob wp (some cmd) jPid).jobsList) : j ∈ l.jobsList ∨ j.jobPid = jPid := by
  have hsub := (removeFinishedJobs_sublist wp l).subset
  unfold addJob at h
  dsimp only at h
  split at h
  · exact Or.inl (hsub h)
  · rcases List.mem_append.mp h with h | h
    · exact Or.inl (hsub h)
    · rw [List.mem_singleton.mp h]
      exact Or.inr rfl

end JobsList

/-- The job `fg` picks is one of the table. -/
theorem mem_of_selectJob {n : ℕ} {arg : Option Int} {jobs : JobsList} {jobId : Int} {j : JobEntry}
    (h : selectJob n arg jobs = .ok (jobId, j)) : j ∈ jobs.jobsList := by
  unfold selectJob at h
  split at h
  · split at h
    · cases h
    · -- `fg` alone takes the last job
      next hlast =>
      cases h
      exact JobsList.mem_of_getJobById (congrArg Prod.snd hlast)
  · split at h
    · cases h
    · split at h
      · cases h
      · split at h
        · cases h
        · next hget =>
          split at h
          · cases h
          · cases h
            exact JobsList.mem_of_getJobById hget

/-- The steps of `fg` do to the table what `ShellState.foreground` does. -/
theorem foreground_eq_selectJob (n : ℕ) (arg : Option Int) (wp : ℕ → WaitResult) (res : FgWait)
    (s : ShellState) :
    s.foreground n arg wp res =
      match selectJob n arg (s.removeFinishedJobs wp).jobs with
      | .error _ => s.removeFinishedJobs wp
      | .ok (jobId, _) => (s.removeFinishedJobs wp).afterWait res jobId := by
  unfold ShellState.foreground selectJob
  dsimp only
  split
  · -- `fg` alone
    rcases hlast : (s.removeFinishedJobs wp).jobs.getLastJob with ⟨jobId, _ | j⟩ <;> rfl
  · cases arg with
    | none => rfl
    | some jobId =>
      dsimp only
      -- `selectJob` joins the two range checks, which report the same error
      by_cases hrange : jobId < 1 ∨ jobId > maxJobsNum
      · rw [if_pos hrange, if_pos (hrange.elim Or.inl fun h => Or.inr (Or.inl h))]
      · rw [if_neg hrange]
        by_cases hmax : jobId > (s.removeFinishedJobs wp).jobs.maxIndex
        · rw [if_pos hmax, if_pos (Or.inr (Or.inr hmax))]
        · have hok : ¬ (jobId < 1 ∨ jobId > maxJobsNum ∨
              jobId > (s.removeFinishedJobs wp).jobs.maxIndex) := by tauto
          rw [if_neg hmax, if_neg hok]
          cases (s.removeFinishedJobs wp).jobs.getJobById jobId with
          | none => rfl
          | some j =>
            by_cases hn : n > 2
            · simp only [if_pos hn]
            · simp only [if_neg hn]

/-! ### The invariant -/

/-- The pid a command has installed and not yet taken back. -/
def Pc.window : Pc → Option Int
  | .wait pid | .restore pid _ | .fgWait _ pid | .fgRestore _ pid _ => some pid
  | _ => none

/-- The pid of a child or a job the main flow is working with. -/
def Pc.pid : Pc → Option Int
  | .addJob _ pid | .change pid | .wait pid | .restore pid _ => some pid
  | .fgChange _ pid | .fgWait _ pid | .fgRestore _ pid _ => some pid
  | _ => none

/-- The command line at `pc` is being executed. -/
def Pc.Executing : Pc → Prop
  | .prompt | .getline => False
  | _ => True

theorem Pc.executing_of_window {pc : Pc} {p : Int} (h : pc.window = some p) : pc.Executing := by
  cases pc <;> simp_all [Pc.window, Pc.Executing]

theorem Pc.pid_of_window {pc : Pc} {p : Int} (h : pc.window = some p) : pc.pid = some p := by
  cases pc <;> simp_all [Pc.window, Pc.pid]

/-- The invariant of the shell whose pid is `pid`. -/
structure FgInv (pid : Int) (s : FgState) : Prop where
  pid_eq : s.shell.pid = pid
  /-- Outside a window the field is the pid of the shell. -/
  outside : s.pc.window = none → s.shell.foregroundCommandPid = pid
  /-- Inside, it is the pid installed by this command, or the handler has restored it. -/
  inside : ∀ p, s.pc.window = some p → s.installed = some p ∧
    (s.shell.foregroundCommandPid = p ∨ s.shell.foregroundCommandPid = pid)
  jobs_pos : ∀ j ∈ s.shell.jobs.jobsList, 0 < j.jobPid
  pc_pos : ∀ p, s.pc.pid = some p → 0 < p

namespace FgInv

variable {pid : Int} {s t : FgState} {l : FgLabel}

theorem initial (pid : Int) : FgInv pid ⟨SmallShell.initial pid, .prompt, none⟩ where
  pid_eq := rfl
  outside _ := rfl
  inside p hp := by simp [Pc.window] at hp
  jobs_pos j hj := by simp [SmallShell.initial, JobsList.initial] at hj
  pc_pos p hp := by simp [Pc.pid] at hp

/-- A call outside every window that leaves the two fields alone. -/
theorem of_outside (h : FgInv pid s) (hpid : t.shell.pid = s.shell.pid)
    (hfg : t.shell.foregroundCommandPid = s.shell.foregroundCommandPid)
    (hs : s.pc.window = none) (ht : t.pc.window = none)
    (hjobs : ∀ j ∈ t.shell.jobs.jobsList, 0 < j.jobPid) (hpc : ∀ p, t.pc.pid = some p → 0 < p) :
    FgInv pid t where
  pid_eq := hpid.trans h.pid_eq
  outside _ := hfg.trans (h.outside hs)
  inside p hp := by simp [ht] at hp
  jobs_pos := hjobs
  pc_pos := hpc

/-- A `removeFinishedJobs` pass outside every window. -/
theorem reap (h : FgInv pid s) (wp : ℕ → WaitResult) {pc : Pc} {installed : Option Int}
    (hs : s.pc.window = none) (ht : pc.window = none) (hpc : pc.pid = none) :
    FgInv pid ⟨{ s.shell with jobs := s.shell.jobs.removeFinishedJobs wp }, pc, installed⟩ :=
  h.of_outside rfl rfl hs ht
    (fun j hj => h.jobs_pos j ((JobsList.removeFinishedJobs_sublist wp _).subset hj))
    (fun p hp => by simp [hpc] at hp)

/-- `changeFGPid` opens a window. -/
theorem change (h : FgInv pid s) {p : Int} {pc : Pc} (hs : s.pc.pid = some p)
    (hwin : pc.window = some p) :
    FgInv pid ⟨s.shell.changeFGPid p, pc, some p⟩ where
  pid_eq := h.pid_eq
  outside hnone := by simp [hwin] at hnone
  inside q hq := by
    obtain rfl : p = q := by simpa [hwin] using hq
    exact ⟨rfl, Or.inl rfl⟩
  jobs_pos := h.jobs_pos
  pc_pos q hq := by
    rw [Pc.pid_of_window hwin] at hq
    exact h.pc_pos q (hs.trans hq)

/-- The answer of `waitpid` keeps the window open. -/
theorem wait (h : FgInv pid s) {p : Int} {pc : Pc} (hs : s.pc.window = some p)
    (ht : pc.window = some p) : FgInv pid { s with pc := pc } where
  pid_eq := h.pid_eq
  outside hnone := by simp [ht] at hnone
  inside q hq := h.inside q (hs.trans (ht.symm.trans hq))
  jobs_pos := h.jobs_pos
  pc_pos q hq := by
    rw [Pc.pid_of_window ht] at hq
    exact h.pc_pos q ((Pc.pid_of_window hs).trans hq)

/-- `returnSmashPidToFG` closes the window, whatever the handler has done meanwhile. -/
theorem restore (h : FgInv pid s) {pc : Pc} (ht : pc.window = none) (hpc : pc.pid = none) :
    FgInv pid { s with shell := s.shell.returnSmashPidToFG, pc := pc } where
  pid_eq := h.pid_eq
  outside _ := h.pid_eq
  inside q hq := by simp [ht] at hq
  jobs_pos := h.jobs_pos
  pc_pos q hq := by simp [hpc] at hq

/-- The handler keeps the invariant wherever it runs. -/
theorem sigint (h : FgInv pid s) (killed : Bool) :
    FgInv pid { s with shell := (ctrlCHandler killed s.shell).shell } := by
  unfold ctrlCHandler
  split
  · exact h
  · split
    · exact h
    · exact ⟨h.pid_eq, fun _ => h.pid_eq, fun p hp => ⟨(h.inside p hp).1, Or.inr h.pid_eq⟩,
        h.jobs_pos, h.pc_pos⟩

/-- **The step lemma**: every call of the main flow and every run of the handler keeps the
invariant. -/
theorem step (h : FgInv pid s) (hst : FgStep s l t) : FgInv pid t := by
  -- the pids a call outside the windows hands on are those it was given
  cases hst with
  | sigint killed => exact h.sigint killed
  | prompt hpc | getline _ hpc | forkFailed hpc | fgRefused hpc _ =>
    exact h.of_outside rfl rfl (by simp [hpc, Pc.window]) rfl h.jobs_pos (by simp [Pc.pid])
  | reapExternal wp hpc | reapForeground wp hpc | fgReap wp hpc =>
    exact h.reap wp (by simp [hpc, Pc.window]) rfl rfl
  | forkBackground sonPid hson hpc | forkForeground sonPid hson hpc =>
    refine h.of_outside rfl rfl (by simp [hpc, Pc.window]) rfl h.jobs_pos fun p hp => ?_
    obtain rfl : sonPid = p := by simpa [Pc.pid] using hp
    exact hson
  | addJob wp hpc =>
    refine h.of_outside rfl rfl (by simp [hpc, Pc.window]) rfl (fun j hj => ?_) (by simp [Pc.pid])
    rcases JobsList.mem_addJob hj with hj | hj
    · exact h.jobs_pos j hj
    · rw [hj]
      exact h.pc_pos _ (by rw [hpc]; rfl)
  | change hpc | fgChange hpc => exact h.change (by rw [hpc]; rfl) rfl
  | wait res hpc | fgWait res hpc => exact h.wait (by rw [hpc]; rfl) rfl
  | restore hpc | fgRestore hpc => exact h.restore rfl rfl
  -- the pid of a listed job
  | fgSelected hpc hsel =>
    refine h.of_outside rfl rfl (by simp [hpc, Pc.window]) rfl h.jobs_pos fun p hp => ?_
    obtain rfl : JobEntry.jobPid _ = p := by simpa [Pc.pid] using hp
    exact h.jobs_pos _ (mem_of_selectJob hsel)
  | @fgRemove jobId res hpc =>
    cases res with
    | exited | signaled =>
      exact h.of_outside rfl rfl (by simp [hpc, Pc.window]) rfl
        (fun j hj => h.jobs_pos j (JobsList.mem_removeJobById hj)) (by simp [Pc.pid])
    | failed | stopped =>
      exact h.of_outside rfl rfl (by simp [hpc, Pc.window]) rfl h.jobs_pos (by simp [Pc.pid])

theorem of_reachable (h : (fgSystem pid).Reachable s) : FgInv pid s :=
  h.invariant (fun s hs => by
    obtain rfl : s = ⟨SmallShell.initial pid, .prompt, none⟩ := hs
    exact FgInv.initial pid) fun _ _ _ hinv hst => hinv.step hst

end FgInv

/-- The handler aims at the pid in the field, and only when that is not the shell's. -/
theorem ctrlCHandler_target {killed : Bool} {sh : SmallShell} {p : Int}
    (h : (ctrlCHandler killed sh).target = some p) :
    p = sh.foregroundCommandPid ∧ p ≠ sh.pid := by
  unfold ctrlCHandler at h
  split at h
  · simp at h
  · next hne =>
    have hp : p = sh.foregroundCommandPid := by
      split at h <;> exact (Option.some.inj h).symm
    rw [hp]
    exact ⟨rfl, fun heq => hne (by simpa [SmallShell.isSmashTheOnlyProcessRunningFG] using heq)⟩

/-- **The foreground pid along every run.** Whenever the shell prints its prompt the field is its
own pid; a `SIGKILL` of the handler never goes to the shell, and it goes to a child that the
command line in execution has installed with `changeFGPid`. -/
theorem foreground_pid_protocol {pid : Int} {s : FgState} (h : (fgSystem pid).Reachable s) :
    (s.pc = .prompt → s.shell.foregroundCommandPid = s.shell.pid) ∧
    ∀ p t, (fgSystem pid).step s (.sigint (some p)) t →
      p ≠ s.shell.pid ∧ 0 < p ∧ s.installed = some p ∧ s.pc.Executing := by
  have hinv := FgInv.of_reachable h
  refine ⟨fun hpc => ?_, fun p t hst => ?_⟩
  · rw [hinv.pid_eq]
    exact hinv.outside (by rw [hpc]; rfl)
  · generalize hl : FgLabel.sigint (some p) = l at hst
    cases hst with
    | sigint killed =>
      obtain ⟨hp, hne⟩ := ctrlCHandler_target (FgLabel.sigint.inj hl).symm
      cases hwin : s.pc.window with
      | none =>
        have hshell : p = s.shell.pid :=
          calc p = s.shell.foregroundCommandPid := hp
            _ = pid := hinv.outside hwin
            _ = s.shell.pid := hinv.pid_eq.symm
        exact absurd hshell hne
      | some q =>
        obtain ⟨hinst, hq⟩ := hinv.inside q hwin
        -- the handler does nothing when the field is the pid of the shell
        obtain rfl : p = q := hp.trans (hq.resolve_right fun hpid =>
          hne (hp.trans (hpid.trans hinv.pid_eq.symm)))
        exact ⟨hne, hinv.pc_pos p (Pc.pid_of_window hwin), hinst, Pc.executing_of_window hwin⟩
    | _ => cases hl

/-- A shell that waits for its first child. -/
def waiting : FgState := ⟨(SmallShell.initial 100).changeFGPid 101, .wait 101, some 101⟩

theorem reachable_waiting : (fgSystem 100).Reachable waiting := by
  have h := System.Reachable.of_init
    (show (fgSystem 100).init ⟨SmallShell.initial 100, .prompt, none⟩ from rfl)
  have h := h.tail (FgStep.prompt rfl)
  have h := h.tail (FgStep.getline (.external false "sleep 100") rfl)
  have h := h.tail (FgStep.reapExternal (fun _ => .running) rfl)
  have h := h.tail (FgStep.forkForeground 101 (by decide) rfl)
  exact h.tail (FgStep.change rfl)

/-- Ctrl-C while the shell waits. -/
theorem foreground_pid_protocol_waiting :
    (101 : Int) ≠ waiting.shell.pid ∧ (0 : Int) < 101 ∧ waiting.installed = some 101 ∧
      waiting.pc.Executing :=
  (foreground_pid_protocol reachable_waiting).2 101 _ (FgStep.sigint true)

end Shell
end OsHomework
