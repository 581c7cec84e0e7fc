import OsHomework.Shell.ChangeDir
import OsHomework.Shell.FgArgument
import OsHomework.Shell.Kill
import OsHomework.Shell.Nesting
import OsHomework.Shell.Quit
import OsHomework.Shell.Redirect

/-!
# The shell as a whole

`SmallShell::executeCommand` and the loop of `main`, on the text that is typed. The other modules
each look at one part of the shell, the job table, the two directories, the foreground pid or the
descriptors, and take the command as given. Here a line is text: it is dispatched, its parameters
are parsed, and the command is executed on all parts at once, in the order of the source; the
answers of the system calls are a parameter (`Calls`).

What the processes print that a command starts is a parameter as well (`Calls.children`): they have
the descriptors of the shell, so that their text goes where its own does. A pipe executes both of
its commands in children, which have a copy of the shell each, so that of the shell itself only the
descriptors take part. Its calls of `close` do not ask whether `pipe` has succeeded, and then close
whatever numbers stand in the array (`PipeAnswer.failed`). A redirection goes through
`executeCommand` once more, in the same process.

`Does` says once what a command can do to the shell (`runCommand_ends`), and everything about whole
sessions follows from it: what holds of each part of the shell between two lines (`session_parts`),
and what a line leaves alone (`line_frame`).
-/

namespace OsHomework
namespace Shell
namespace Smash

variable {Dir File : Type}

/-! ### The shell -/

/-- The shell process: the object, the current directory, and the descriptors. -/
structure State (Dir File : Type) where
  shell : SmallShell
  prompt : String
  dirs : ChangeDir.State Dir
  fds : FdTable File

/-- The two streams a command prints to. -/
inductive Stream
  | stdout
  | stderr
  deriving DecidableEq, Repr

/-- The descriptor of a stream. -/
def Stream.fd : Stream → ℕ
  | .stdout => 1
  | .stderr => 2

/-- A line of text, with the file that the descriptor of its stream referred to. -/
structure Printed (File : Type) where
  stream : Stream
  file : Option File
  text : String

/-- The answer of `pipe`: the files of its two ends, or a failure, after which the array holds the
numbers that happen to be there. -/
inductive PipeAnswer (File : Type)
  | opened (ends : File × File)
  | failed (fd₀ fd₁ : ℕ)

/-- The answers of the system calls that are made while one command is executed. -/
structure Calls (Dir File : Type) where
  /-- `waitpid` in the pass of `executeCommand`. -/
  reap : ℕ → WaitResult
  /-- `waitpid` in the pass of `jobs`, of `fg` or of `addJob`. -/
  reapAgain : ℕ → WaitResult
  /-- The pid that `fork` answers to the shell. -/
  fork : Int
  /-- `waitpid` for a command in the foreground succeeds. -/
  waited : Bool
  fgWait : FgWait
  killed : ℕ → Bool
  pwdMalloc : Bool
  pwdGetcwd : Bool
  cd : ChangeDir.Answers Dir
  /-- What `pipe` answers, and the two calls of `close`. -/
  pipe : PipeAnswer File × CloseAnswer × CloseAnswer
  /-- What the processes that the command starts write to their standard output and to their
  standard error. What the first command of a pipe writes into the pipe is not part of it. -/
  children : List String × List String
  redirect : Answers File

/-- How the execution of a line ends. -/
inductive Ran (Dir File : Type)
  /-- The shell is ready for the next line. -/
  | ready (s : State Dir File) (printed : List (Printed File))
  /-- `quit` has printed its text. What follows is `delete this`, which `Storage` is about, and
  `exit(0)`. -/
  | exited (printed : List (Printed File))
  /-- Memory is used that holds nothing, or does not belong to the object. -/
  | undefined

/-- What is printed before. -/
def Ran.after (printed : List (Printed File)) : Ran Dir File → Ran Dir File
  | .ready s out => .ready s (printed ++ out)
  | .exited out => .exited (printed ++ out)
  | .undefined => .undefined

namespace State

/-- Text for `std::cout`, and then text for `std::cerr` or from `perror`. -/
def print (s : State Dir File) (out err : List String) : List (Printed File) :=
  out.map (fun text => ⟨.stdout, s.fds.file 1, text⟩) ++
    err.map fun text => ⟨.stderr, s.fds.file 2, text⟩

def setJobs (jobs : JobsList) (s : State Dir File) : State Dir File :=
  { s with shell := { s.shell with jobs := jobs } }

end State

/-- What `removeFinishedJobs` reports. -/
def reapNote (wp : ℕ → WaitResult) (jobs : JobsList) : List String :=
  if (JobsList.reapLoop wp 0 jobs.jobsList).2 then [] else ["smash error: waitpid failed"]

/-- The prompt that a `chprompt` sets, by its parameters; `none` when there are none. -/
def newPrompt : List String → Option String
  | [] => none
  | [_] => some "smash> "
  | _ :: p :: _ => some (p ++ "> ")

/-- `GetCurrDirCommand::execute`: what goes to the two streams. -/
def pwdLines (path : Dir → String) (a : Calls Dir File) (cwd : Dir) : List String × List String :=
  if a.pwdMalloc = false then ([], ["smash error: malloc failed"])
  else if a.pwdGetcwd = false then ([], ["smash error: getcwd failed"])
  else ([path cwd], [])

/-- `JobsList::printJobsList`, behind its pass. -/
def jobLines (jobs : JobsList) : List String :=
  jobs.jobsList.map fun j => "[" ++ toString j.jobId ++ "] " ++ j.cmd

/-- The descriptors of the shell after `PipeCommand::execute`. -/
def pipeTable (a : PipeAnswer File × CloseAnswer × CloseAnswer) (t : FdTable File) :
    FdTable File :=
  match a.1 with
  | .opened ends => RedirectionCommand.pipeFds ends a.2.1 a.2.2 t
  | .failed fd₀ fd₁ => ((t.close a.2.1 fd₀).2.close a.2.2 fd₁).2

/-- `ExternalCommand::execute`: what the shell does, and what the child prints, which has the
descriptors that the shell has at the `fork`. -/
def external (a : Calls Dir File) (isBackground : Bool) (cmdLine : String) (s : State Dir File) :
    Ran Dir File :=
  let printed := s.print a.children.1 a.children.2
  if a.fork = -1 then .ready s (s.print [] ["smash error: fork failed"])
  else if isBackground then
    .ready (s.setJobs (s.shell.jobs.addJob a.reapAgain (some cmdLine) a.fork))
      (s.print [] (reapNote a.reapAgain s.shell.jobs) ++ printed)
  else
    .ready { s with shell := (s.shell.changeFGPid a.fork).returnSmashPidToFG }
      (printed ++ s.print [] (if a.waited then [] else ["smash error: waitpid failed"]))

/-- `CreateCommand(cmd_line)` and `execute()`, for a line that is no redirection. -/
def runCommand (path : Dir → String) (a : Calls Dir File) (cmdLine : String)
    (s : State Dir File) : Ran Dir File :=
  match mkCommand cmdLine, isBackgroundCommand cmdLine with
  | some cmd, some isBackground =>
    match createCommand cmdLine with
    | .redirection => .undefined
    | .pipe =>
      match mkPipe cmdLine with
      | none => .undefined
      | some _ =>
        .ready { s with fds := pipeTable a.pipe s.fds }
          (s.print a.children.1 a.children.2)
    | .chprompt =>
      match newPrompt (params cmdLine) with
      | none => .undefined
      | some prompt => .ready { s with prompt := prompt } []
    | .showpid => .ready s (s.print ["smash pid is " ++ toString s.shell.pid] [])
    | .pwd => .ready s (s.print (pwdLines path a s.dirs.cwd).1 (pwdLines path a s.dirs.cwd).2)
    | .cd =>
      let run := ChangeDir.execute path (params cmdLine).tail a.cd s.dirs
      .ready { s with dirs := run.1 } (s.print [] run.2)
    | .jobs =>
      let jobs := s.shell.jobs.removeFinishedJobs a.reapAgain
      .ready (s.setJobs jobs)
        (s.print [] (reapNote a.reapAgain s.shell.jobs) ++ s.print (jobLines jobs) [])
    | .fg =>
      let run := fgExecute (params cmdLine) a.reapAgain a.fgWait s.shell
      .ready { s with shell := run.shell }
        (s.print [] (reapNote a.reapAgain s.shell.jobs) ++ s.print run.stdout run.stderr)
    | .quit =>
      let out := quit (params cmdLine) a.killed s.shell.jobs
      .exited (s.print out.lines (if out.killFailed then ["smash error: kill failed"] else []))
    | .kill =>
      match killExecute (a.killed 0) s.shell.jobs cmd with
      | none => .undefined
      | some run => .ready s (s.print run.stdout run.stderr)
    | .external => external a isBackground cmdLine s
  | _, _ => .undefined

/-- `executeCommand`, for a line that is no redirection. -/
def executePlain (path : Dir → String) (a : Calls Dir File) (cmdLine : String)
    (s : State Dir File) : Ran Dir File :=
  if cmdLine.toList.all Stoi.isspace then .ready s []
  else
    (runCommand path a cmdLine (s.setJobs (s.shell.jobs.removeFinishedJobs a.reap))).after
      (s.print [] (reapNote a.reap s.shell.jobs))

/-- The end of `RedirectionCommand::execute`: descriptor `1` is moved back. -/
def restore (ok : Bool) (ogStdoutFdt : ℕ) : Ran Dir File → Ran Dir File
  | .ready s out =>
    let (ok, t) := s.fds.dup2 ok ogStdoutFdt 1
    .ready { s with fds := t } (out ++ if ok then [] else s.print [] ["smash error: dup2 failed"])
  | ran => ran

/-- `RedirectionCommand::execute`, behind a successful `dup(1)`. The command in front of the arrow
has no arrow, and is executed by the shell itself. -/
def redirected (path : Dir → String) (a : Answers File) (b : Calls Dir File)
    (fdtFile ogStdoutFdt : ℕ) (cmdLine : String) (s : State Dir File) : Ran Dir File :=
  let (ok, t) := s.fds.dup2 a.dup2File fdtFile 1
  if ok = false then .ready { s with fds := t } (s.print [] ["smash error: dup2 failed"])
  else
    let (closed, t) := t.close a.closeFile fdtFile
    let s := { s with fds := t }
    if closed = false then .ready s (s.print [] ["smash error: close failed"])
    else restore a.dup2Stdout ogStdoutFdt (executePlain path b cmdLine s)

/-- `RedirectionCommand::execute`. -/
def redirect (path : Dir → String) (a : Answers File) (b : Calls Dir File) (p : Parts)
    (s : State Dir File) : Ran Dir File :=
  let flags := if p.marked then [.creat, .rdwr, .append] else [.creat, .rdwr, .trunc]
  match a.openFile (String.ofList p.second) flags with
  | none => .ready s (s.print [] ["smash error: open failed"])
  | some f =>
    let fdtFile := s.fds.lowestFree
    match (s.fds.install fdtFile f).dup a.dupStdout 1 with
    | (none, t) =>
      let (closed, t) := t.close a.closeAfterDup fdtFile
      .ready { s with fds := t } (s.print []
        ("smash error: dup failed" :: if closed then [] else ["smash error: close failed"]))
    | (some ogStdoutFdt, t) =>
      redirected path a b fdtFile ogStdoutFdt (String.ofList p.first) { s with fds := t }

/-- `CreateCommand(cmd_line)` and `execute()`. The second answers are those to the command in front
of an arrow. -/
def createAndExecute (path : Dir → String) (a b : Calls Dir File) (cmdLine : String)
    (s : State Dir File) : Ran Dir File :=
  if createCommand cmdLine = .redirection then
    match mkCommand cmdLine, mkRedirection cmdLine with
    | some _, some p => redirect path a.redirect b p s
    | _, _ => .undefined
  else runCommand path a cmdLine s

/-- `SmallShell::executeCommand`. -/
def executeCommand (path : Dir → String) (a b : Calls Dir File) (cmdLine : String)
    (s : State Dir File) : Ran Dir File :=
  if cmdLine.toList.all Stoi.isspace then .ready s []
  else
    (createAndExecute path a b cmdLine
      (s.setJobs (s.shell.jobs.removeFinishedJobs a.reap))).after
        (s.print [] (reapNote a.reap s.shell.jobs))

/-! ### What a command can do -/

/-- What a command leaves behind, by its class. -/
inductive Does (path : Dir → String) (a : Calls Dir File) (cmdLine : String)
    (s : State Dir File) : State Dir File → Prop
  | nothing : createCommand cmdLine ∈ [.showpid, .pwd, .kill, .external] →
      Does path a cmdLine s s
  | prompt {prompt : String} : createCommand cmdLine = .chprompt →
      newPrompt (params cmdLine) = some prompt → Does path a cmdLine s { s with prompt := prompt }
  | cd : createCommand cmdLine = .cd → Does path a cmdLine s
      { s with dirs := (ChangeDir.execute path (params cmdLine).tail a.cd s.dirs).1 }
  | jobs : createCommand cmdLine = .jobs →
      Does path a cmdLine s (s.setJobs (s.shell.jobs.removeFinishedJobs a.reapAgain))
  | fg : createCommand cmdLine = .fg → Does path a cmdLine s
      { s with shell := (fgExecute (params cmdLine) a.reapAgain a.fgWait s.shell).shell }
  | background : createCommand cmdLine = .external → isBackgroundCommand cmdLine = some true →
      Does path a cmdLine s
        (s.setJobs (s.shell.jobs.addJob a.reapAgain (some cmdLine) a.fork))
  | foreground : createCommand cmdLine = .external → Does path a cmdLine s
      { s with shell := (s.shell.changeFGPid a.fork).returnSmashPidToFG }
  | pipe : createCommand cmdLine = .pipe → Does path a cmdLine s
      { s with fds := pipeTable a.pipe s.fds }

/-- Every text has gone to the file that the descriptor of its stream refers to. -/
def PrintedTo (t : FdTable File) (printed : List (Printed File)) : Prop :=
  ∀ x ∈ printed, x.file = t.file x.stream.fd

/-- What holds however a line has ended, as long as the behaviour is defined. -/
inductive Ran.Ends (isReady : State Dir File → List (Printed File) → Prop)
    (hasExited : List (Printed File) → Prop) : Ran Dir File → Prop
  | ready {s : State Dir File} {printed : List (Printed File)} :
      isReady s printed → Ran.Ends isReady hasExited (.ready s printed)
  | exited {printed : List (Printed File)} :
      hasExited printed → Ran.Ends isReady hasExited (.exited printed)
  | undefined : Ran.Ends isReady hasExited .undefined

section Commands

variable {path : Dir → String} {a b : Calls Dir File} {cmdLine : String} {s s' : State Dir File}
  {printed : List (Printed File)} {t : FdTable File}

theorem printedTo_nil : PrintedTo t [] := fun _ hx => absurd hx List.not_mem_nil

theorem printedTo_append {printed' : List (Printed File)} :
    PrintedTo t (printed ++ printed') ↔ PrintedTo t printed ∧ PrintedTo t printed' :=
  List.forall_mem_append

theorem printedTo_print (s : State Dir File) (out err : List String) :
    PrintedTo s.fds (s.print out err) := by
  intro x hx
  obtain hx | hx := List.mem_append.mp hx
  · obtain ⟨text, -, rfl⟩ := List.mem_map.mp hx
    rfl
  · obtain ⟨text, -, rfl⟩ := List.mem_map.mp hx
    rfl

theorem Ran.Ends.imp {ready ready' : State Dir File → List (Printed File) → Prop}
    {exited exited' : List (Printed File) → Prop} {ran : Ran Dir File}
    (h : ran.Ends ready exited) (hready : ∀ s out, ready s out → ready' s out)
    (hexited : ∀ out, exited out → exited' out) : ran.Ends ready' exited' := by
  cases h with
  | ready h => exact .ready (hready _ _ h)
  | exited h => exact .exited (hexited _ h)
  | undefined => exact .undefined

theorem Ran.ends_after {ready : State Dir File → List (Printed File) → Prop}
    {exited : List (Printed File) → Prop} {ran : Ran Dir File} :
    (ran.after printed).Ends ready exited ↔
      ran.Ends (fun s out => ready s (printed ++ out)) fun out => exited (printed ++ out) := by
  constructor
  · intro h
    cases ran with
    | ready s out =>
      cases h with
      | ready h => exact .ready h
    | exited out =>
      cases h with
      | exited h => exact .exited h
    | undefined => exact .undefined
  · intro h
    cases h with
    | ready h => exact .ready h
    | exited h => exact .exited h
    | undefined => exact .undefined

/-- What an external command does to the shell. -/
theorem external_ends (hclass : createCommand cmdLine = .external) {isBackground : Bool}
    (hbackground : isBackgroundCommand cmdLine = some isBackground) :
    (external a isBackground cmdLine s).Ends
      (fun s' out => Does path a cmdLine s s' ∧ PrintedTo s.fds out) fun _ => False := by
  unfold external
  split
  -- `fork` has failed, and the shell is as it was
  · exact .ready ⟨.nothing (by rw [hclass]; decide), printedTo_print _ _ _⟩
  · cases isBackground with
    | true =>
      exact .ready ⟨.background hclass hbackground,
        printedTo_append.mpr ⟨printedTo_print _ _ _, printedTo_print _ _ _⟩⟩
    | false =>
      exact .ready ⟨.foreground hclass,
        printedTo_append.mpr ⟨printedTo_print _ _ _, printedTo_print _ _ _⟩⟩

/-- **One command**: what it does to the shell, that only `quit` ends it, and where its text
goes. -/
theorem runCommand_ends (path : Dir → String) (a : Calls Dir File) (cmdLine : String)
    (s : State Dir File) :
    (runCommand path a cmdLine s).Ends
      (fun s' out => Does path a cmdLine s s' ∧ PrintedTo s.fds out)
      fun out => createCommand cmdLine = .quit ∧ PrintedTo s.fds out := by
  unfold runCommand
  cases mkCommand cmdLine with
  | none => exact .undefined
  | some cmd =>
    cases hbackground : isBackgroundCommand cmdLine with
    | none => exact .undefined
    -- one case for each class of commands
    | some isBackground =>
      dsimp only
      cases hclass : createCommand cmdLine with
      -- a line with an arrow does not come here
      | redirection => exact .undefined
      | pipe =>
        cases mkPipe cmdLine with
        | none => exact .undefined
        | some p => exact .ready ⟨.pipe hclass, printedTo_print _ _ _⟩
      | chprompt =>
        cases hprompt : newPrompt (params cmdLine) with
        | none => exact .undefined
        | some prompt => exact .ready ⟨.prompt hclass hprompt, printedTo_nil⟩
      | showpid | pwd => exact .ready ⟨.nothing (by rw [hclass]; decide), printedTo_print _ _ _⟩
      | cd => exact .ready ⟨.cd hclass, printedTo_print _ _ _⟩
      | jobs =>
        exact .ready
          ⟨.jobs hclass, printedTo_append.mpr ⟨printedTo_print _ _ _, printedTo_print _ _ _⟩⟩
      | fg =>
        exact .ready
          ⟨.fg hclass, printedTo_append.mpr ⟨printedTo_print _ _ _, printedTo_print _ _ _⟩⟩
      -- the only command that ends the shell
      | quit => exact .exited ⟨rfl, printedTo_print _ _ _⟩
      | kill =>
        cases killExecute (a.killed 0) s.shell.jobs cmd with
        | none => exact .undefined
        | some run => exact .ready ⟨.nothing (by rw [hclass]; decide), printedTo_print _ _ _⟩
      | external =>
        exact (external_ends hclass hbackground).imp (fun _ _ h => h) fun _ h => h.elim

end Commands

/-! ### What a line can do -/

/-- What happens around a command: finished jobs are removed, and descriptors change. -/
inductive Tidies (s : State Dir File) : State Dir File → Prop
  | reap (wp : ℕ → WaitResult) : Tidies s (s.setJobs (s.shell.jobs.removeFinishedJobs wp))
  | fds (t : FdTable File) : Tidies s { s with fds := t }

/-- Any number of such moves. -/
abbrev Tidied (s s' : State Dir File) : Prop := Relation.ReflTransGen Tidies s s'

/-- The answers to the command of a line. -/
def callsOf (a b : Calls Dir File) (cmdLine : String) : Calls Dir File :=
  if '>' ∈ cmdLine.toList then b else a

/-- What a line leaves behind: the moves around its command, and what the command does if it comes
to it. -/
def LineDoes (path : Dir → String) (a : Calls Dir File) (cmdLine : String)
    (s s' : State Dir File) : Prop :=
  Tidied s s' ∨ ∃ s₁ s₂, Tidied s s₁ ∧ Does path a cmdLine s₁ s₂ ∧ Tidied s₂ s'

section Lines

variable {path : Dir → String} {a b : Calls Dir File} {cmdLine : String}
  {s s' s'' : State Dir File} {printed : List (Printed File)}

theorem LineDoes.tidied (h : LineDoes path a cmdLine s s') (htidied : Tidied s' s'') :
    LineDoes path a cmdLine s s'' := by
  obtain h | ⟨s₁, s₂, hbefore, hdoes, hafter⟩ := h
  · exact Or.inl (h.trans htidied)
  · exact Or.inr ⟨s₁, s₂, hbefore, hdoes, hafter.trans htidied⟩

theorem LineDoes.of_tidied (htidied : Tidied s s') (h : LineDoes path a cmdLine s' s'') :
    LineDoes path a cmdLine s s'' := by
  obtain h | ⟨s₁, s₂, hbefore, hdoes, hafter⟩ := h
  · exact Or.inl (htidied.trans h)
  · exact Or.inr ⟨s₁, s₂, htidied.trans hbefore, hdoes, hafter⟩

theorem executePlain_ends (path : Dir → String) (a : Calls Dir File) (cmdLine : String)
    (s : State Dir File) :
    (executePlain path a cmdLine s).Ends
      (fun s' _ => LineDoes path a cmdLine s s') fun _ => createCommand cmdLine = .quit := by
  unfold executePlain
  split
  · exact .ready (Or.inl .refl)
  · rw [Ran.ends_after]
    -- `executeCommand` removes finished jobs first
    have hends := runCommand_ends path a cmdLine
      (s.setJobs (s.shell.jobs.removeFinishedJobs a.reap))
    apply Ran.Ends.imp hends
    · rintro s' out ⟨hdoes, -⟩
      exact Or.inr ⟨_, s', .single (.reap a.reap), hdoes, .refl⟩
    · rintro out ⟨hquit, -⟩
      exact hquit

theorem redirected_ends (path : Dir → String) (a : Answers File) (b : Calls Dir File)
    (fdtFile ogStdoutFdt : ℕ) (cmdLine : String) (s : State Dir File) :
    (redirected path a b fdtFile ogStdoutFdt cmdLine s).Ends
      (fun s' _ => LineDoes path b cmdLine s s') fun _ => createCommand cmdLine = .quit := by
  unfold redirected
  dsimp only
  split
  · exact .ready (Or.inl (.single (.fds _)))
  · split
    · exact .ready (Or.inl (.single (.fds _)))
    · -- both descriptors are moved, and the command runs on that table
      generalize hmoved :
        { s with fds := ((s.fds.dup2 a.dup2File fdtFile 1).2.close a.closeFile fdtFile).2 } = s₁
      have htidied : Tidied s s₁ := hmoved ▸ .single (.fds _)
      -- what the command does, with the table restored behind it
      have hinner := executePlain_ends path b cmdLine s₁
      cases hrun : executePlain path b cmdLine s₁ with
      | ready s' out =>
        rw [hrun] at hinner
        cases hinner with
        | ready h => exact .ready ((LineDoes.of_tidied htidied h).tidied (.single (.fds _)))
      | exited out =>
        rw [hrun] at hinner
        cases hinner with
        | exited h => exact .exited h
      | undefined => exact .undefined

theorem redirect_ends (path : Dir → String) (a : Answers File) (b : Calls Dir File) (p : Parts)
    (s : State Dir File) :
    (redirect path a b p s).Ends
      (fun s' _ => LineDoes path b (String.ofList p.first) s s')
      fun _ => createCommand (String.ofList p.first) = .quit := by
  unfold redirect
  dsimp only
  split
  -- `open` has failed
  · exact .ready (Or.inl .refl)
  · split
    · exact .ready (Or.inl (.single (.fds _)))
    · refine (redirected_ends path a b _ _ _ _).imp (fun s' out h => ?_) fun out h => h
      exact LineDoes.of_tidied (.single (.fds _)) h

/-- The command in front of the arrow. -/
theorem executed_of_mkRedirection {p : Parts} (harrow : '>' ∈ cmdLine.toList)
    (hp : mkRedirection cmdLine = some p) : String.ofList p.first = executed cmdLine := by
  have hfirst := (splitsAt_of_eq_some rfl rfl (by decide) harrow
    (splitRedirection_of_mkRedirection hp)).first_eq
  rw [executed, if_pos harrow, hfirst]
  rfl

/-- The branches of `createCommand`, one after the other. -/
theorem ite_class_ne {p : Prop} [Decidable p] {c d e : CommandClass} (hc : c ≠ e) (hd : d ≠ e) :
    (if p then c else d) ≠ e := by
  split
  · exact hc
  · exact hd

theorem createCommand_of_plain (h : '>' ∉ cmdLine.toList) :
    createCommand cmdLine ≠ .redirection := by
  have htrim : '>' ∉ trim cmdLine.toList := fun hmem => h (mem_of_mem_trim hmem)
  unfold createCommand
  dsimp only
  rw [if_neg htrim]
  repeat' apply ite_class_ne
  all_goals exact nofun

theorem createAndExecute_ends (path : Dir → String) (a b : Calls Dir File) (cmdLine : String)
    (s : State Dir File) :
    (createAndExecute path a b cmdLine s).Ends
      (fun s' _ => LineDoes path (callsOf a b cmdLine) (executed cmdLine) s s')
      fun _ => createCommand (executed cmdLine) = .quit := by
  unfold createAndExecute
  by_cases harrow : '>' ∈ cmdLine.toList
  · rw [if_pos (createCommand_of_arrow harrow), callsOf, if_pos harrow]
    cases mkCommand cmdLine with
    | none => exact .undefined
    | some cmd =>
      cases hp : mkRedirection cmdLine with
      | none => exact .undefined
      | some p =>
        -- the command is what stands in front of the arrow
        rw [← executed_of_mkRedirection harrow hp]
        exact redirect_ends path a.redirect b p s
  · -- without an arrow the command is the whole line
    rw [if_neg (createCommand_of_plain harrow), callsOf, if_neg harrow, executed, if_neg harrow]
    apply Ran.Ends.imp (runCommand_ends path a cmdLine s)
    · -- nothing happens around it
      rintro s' out ⟨hdoes, -⟩
      exact Or.inr ⟨s, s', .refl, hdoes, .refl⟩
    · rintro out ⟨hquit, -⟩
      exact hquit

/-- **One line**: its command does what it does, with passes over the job table and changes of the
descriptors around it; and only `quit` ends the shell. -/
theorem executeCommand_ends (path : Dir → String) (a b : Calls Dir File) (cmdLine : String)
    (s : State Dir File) :
    (executeCommand path a b cmdLine s).Ends
      (fun s' _ => LineDoes path (callsOf a b cmdLine) (executed cmdLine) s s')
      fun _ => createCommand (executed cmdLine) = .quit := by
  unfold executeCommand
  split
  · exact .ready (Or.inl .refl)
  · -- the pass over the job table comes before the command
    rw [Ran.ends_after]
    apply Ran.Ends.imp (createAndExecute_ends path a b cmdLine _)
    · exact fun s' _ h => LineDoes.of_tidied (.single (.reap a.reap)) h
    · exact fun _ h => h

end Lines

/-! ### Sessions -/

/-- What the loop of `main` is given for one line: the answers, and the line. -/
structure Typed (Dir File : Type) where
  calls : Calls Dir File
  innerCalls : Calls Dir File
  cmdLine : String

/-- The answers to the command of the line. -/
def Typed.commandCalls (l : Typed Dir File) : Calls Dir File :=
  callsOf l.calls l.innerCalls l.cmdLine

/-- The arguments of the command of the line. -/
def Typed.args (l : Typed Dir File) : List String := (params (executed l.cmdLine)).tail

/-- The loop of `main`, as long as the shell has not ended. Of the file system it is assumed that
the path of a directory leads to this directory. -/
def session (path : Dir → String) : System (State Dir File) (Typed Dir File) where
  init s := s.shell = SmallShell.initial s.shell.pid ∧ s.prompt = "smash> " ∧
    s.dirs.lastWorkingDirectory = ChangeDir.notSet
  step s l t := l.commandCalls.cd.Possible path l.args s.dirs ∧
    ∃ printed, executeCommand path l.calls l.innerCalls l.cmdLine s = .ready t printed

section Sessions

variable {path : Dir → String} {l : Typed Dir File} {s t : State Dir File}

/-- What a line does in a session. -/
theorem lineDoes_of_step (h : (session path).step s l t) :
    LineDoes path l.commandCalls (executed l.cmdLine) s t := by
  obtain ⟨-, printed, hrun⟩ := h
  have hends := executeCommand_ends path l.calls l.innerCalls l.cmdLine s
  rw [hrun] at hends
  cases hends with
  | ready h => exact h

/-- Around a command, the directories, the prompt and the pids stay. -/
structure SameParts (s s' : State Dir File) : Prop where
  prompt : s'.prompt = s.prompt
  dirs : s'.dirs = s.dirs
  pid : s'.shell.pid = s.shell.pid
  fgPid : s'.shell.foregroundCommandPid = s.shell.foregroundCommandPid

theorem Tidied.sameParts {s s' : State Dir File} (h : Tidied s s') : SameParts s s' := by
  induction h with
  | refl => exact ⟨rfl, rfl, rfl, rfl⟩
  | tail _ hst ih =>
    cases hst with
    | reap wp => exact ⟨ih.prompt, ih.dirs, ih.pid, ih.fgPid⟩
    | fds t => exact ⟨ih.prompt, ih.dirs, ih.pid, ih.fgPid⟩

/-- … and the next id does not grow. -/
theorem Tidied.maxIndex_le {s s' : State Dir File} (h : Tidied s s')
    (htable : JobsList.TableInv s.shell.jobs) :
    s'.shell.jobs.maxIndex ≤ s.shell.jobs.maxIndex ∧ JobsList.TableInv s'.shell.jobs := by
  induction h with
  | refl => exact ⟨le_rfl, htable⟩
  | tail _ hst ih =>
    obtain ⟨hle, htable'⟩ := ih
    cases hst with
    | reap wp =>
      exact ⟨(htable'.removeFinishedJobs_maxIndex_le wp).trans hle, htable'.removeFinishedJobs wp⟩
    | fds t => exact ⟨hle, htable'⟩

/-- … and the job table loses finished jobs only. -/
theorem Tidied.jobs_sublist {s s' : State Dir File} (h : Tidied s s') :
    s'.shell.jobs.jobsList.Sublist s.shell.jobs.jobsList := by
  induction h with
  | refl => exact List.Sublist.refl _
  | tail _ hst ih =>
    cases hst with
    | reap wp => exact (JobsList.removeFinishedJobs_sublist wp _).trans ih
    | fds t => exact ih

end Sessions

theorem fgExecute_pid (ps : List String) (wp : ℕ → WaitResult) (res : FgWait) (sh : SmallShell) :
    (fgExecute ps wp res sh).shell.pid = sh.pid := by
  unfold fgExecute
  dsimp only
  split
  · rfl
  · cases res <;> rfl

/-- `fg` gives the foreground back to the shell. -/
theorem fgExecute_fgPid (ps : List String) (wp : ℕ → WaitResult) (res : FgWait) (sh : SmallShell)
    (h : sh.foregroundCommandPid = sh.pid) :
    (fgExecute ps wp res sh).shell.foregroundCommandPid = sh.pid := by
  unfold fgExecute
  dsimp only
  split
  · exact h
  · cases res <;> rfl

theorem fgExecute_table (ps : List String) (wp : ℕ → WaitResult) (res : FgWait) (sh : SmallShell)
    (h : JobsList.TableInv sh.jobs) :
    JobsList.TableInv (fgExecute ps wp res sh).shell.jobs := by
  have hreap := h.removeFinishedJobs wp
  unfold fgExecute
  dsimp only
  split
  · exact hreap
  · cases res with
    | failed | stopped => exact hreap
    | exited | signaled => exact hreap.removeJobById _

/-- The `cd` commands among the lines, with the answers that they get. -/
def cdCommands (ls : List (Typed Dir File)) : List (List String × ChangeDir.Answers Dir) :=
  (ls.filter fun l => createCommand (executed l.cmdLine) = .cd).map
    fun l => (l.args, l.commandCalls.cd)

/-- A prompt that the lines can have set: the first one, or the argument of a `chprompt`. -/
def IsPrompt (ls : List (Typed Dir File)) (prompt : String) : Prop :=
  prompt = "smash> " ∨ ∃ l ∈ ls, createCommand (executed l.cmdLine) = .chprompt ∧
    ∃ p, l.args.head? = some p ∧ prompt = p ++ "> "

section Lists

variable {ls : List (Typed Dir File)} {l : Typed Dir File} {prompt : String}

theorem cdCommands_snoc (ls : List (Typed Dir File)) (l : Typed Dir File) :
    cdCommands (ls ++ [l]) = cdCommands ls ++
      if createCommand (executed l.cmdLine) = .cd then [(l.args, l.commandCalls.cd)] else [] := by
  -- the last line counts if it is a `cd`
  rw [cdCommands, List.filter_append, List.map_append]
  refine congrArg (cdCommands ls ++ ·) ?_
  by_cases h : createCommand (executed l.cmdLine) = .cd
  · rw [if_pos h, List.filter_cons, if_pos (decide_eq_true h)]
    rfl
  · rw [if_neg h, List.filter_cons, if_neg fun hd => h (of_decide_eq_true hd)]
    rfl

theorem IsPrompt.snoc (h : IsPrompt ls prompt) (l : Typed Dir File) :
    IsPrompt (ls ++ [l]) prompt :=
  h.imp_right fun ⟨l', hl', hset⟩ => ⟨l', List.mem_append_left _ hl', hset⟩

theorem isPrompt_of_newPrompt (hclass : createCommand (executed l.cmdLine) = .chprompt)
    (h : newPrompt (params (executed l.cmdLine)) = some prompt) : IsPrompt (ls ++ [l]) prompt := by
  have hargs : l.args = (params (executed l.cmdLine)).tail := rfl
  generalize params (executed l.cmdLine) = ws at h hargs
  -- `chprompt` alone sets the first prompt again
  rcases ws with _ | ⟨w, _ | ⟨p, ws⟩⟩
  · cases h
  · exact Or.inl (Option.some.inj h).symm
  · refine Or.inr ⟨l, List.mem_append_right _ List.mem_cons_self, hclass, p, ?_,
      (Option.some.inj h).symm⟩
    rw [hargs]
    rfl

end Lists

/-- What holds of each part of the shell between two lines, `ls` being those so far. -/
structure PartsInv (path : Dir → String) (start : ChangeDir.State Dir) (ls : List (Typed Dir File))
    (s : State Dir File) : Prop where
  fgPid : s.shell.foregroundCommandPid = s.shell.pid
  table : JobsList.TableInv s.shell.jobs
  dirs : ∃ cds u, List.Sublist cds (cdCommands ls) ∧
    (ChangeDir.session path).Run ⟨start, false⟩ cds u ∧ u.state = s.dirs
  prompt : IsPrompt ls s.prompt

namespace PartsInv

variable {path : Dir → String} {start : ChangeDir.State Dir} {ls : List (Typed Dir File)}
  {l : Typed Dir File} {s s' : State Dir File}

theorem tidied (h : PartsInv path start ls s) (htidied : Tidied s s') :
    PartsInv path start ls s' := by
  have hsame := htidied.sameParts
  refine ⟨?_, (htidied.maxIndex_le h.table).2, ?_, ?_⟩
  · rw [hsame.fgPid, hsame.pid, h.fgPid]
  · rw [hsame.dirs]
    exact h.dirs
  · rw [hsame.prompt]
    exact h.prompt

/-- A line that has changed nothing. -/
theorem snoc (h : PartsInv path start ls s) (l : Typed Dir File) :
    PartsInv path start (ls ++ [l]) s := by
  obtain ⟨cds, u, hsub, hrun, hstate⟩ := h.dirs
  refine ⟨h.fgPid, h.table, ⟨cds, u, ?_, hrun, hstate⟩, h.prompt.snoc l⟩
  rw [cdCommands_snoc]
  exact hsub.trans (List.sublist_append_left _ _)

theorem setShell (h : PartsInv path start ls s) {sh : SmallShell}
    (hpid : sh.foregroundCommandPid = sh.pid) (htable : JobsList.TableInv sh.jobs) :
    PartsInv path start ls { s with shell := sh } :=
  ⟨hpid, htable, h.dirs, h.prompt⟩

/-- One more `cd`. -/
theorem setDirs (h : PartsInv path start ls s) {args : List String}
    {answers : ChangeDir.Answers Dir}
    (hlast : cdCommands (ls ++ [l]) = cdCommands ls ++ [(args, answers)])
    (hpossible : answers.Possible path args s.dirs) :
    PartsInv path start (ls ++ [l])
      { s with dirs := (ChangeDir.execute path args answers s.dirs).1 } := by
  obtain ⟨cds, u, hsub, hrun, hstate⟩ := h.dirs
  refine ⟨h.fgPid, h.table, ?_, h.prompt.snoc l⟩
  rw [← hstate] at hpossible ⊢
  -- the command is a step of the session of `cd` commands alone
  have hstep : (ChangeDir.session path).step u (args, answers)
      ⟨(ChangeDir.execute path args answers u.state).1,
        u.succeeded || decide (ChangeDir.Succeeds path args answers u.state)⟩ :=
    ⟨hpossible, rfl, rfl⟩
  refine ⟨_, _, ?_, hrun.snoc hstep, rfl⟩
  -- and it is the last of those that were typed
  rw [hlast]
  exact hsub.append (List.Sublist.refl _)

/-- **Step lemma**: a command is a step of the part that it is about. -/
theorem does (h : PartsInv path start ls s)
    (hpossible : l.commandCalls.cd.Possible path l.args s.dirs)
    (hids : s.shell.jobs.maxIndex < 2 ^ 31 - 1)
    (hdoes : Does path l.commandCalls (executed l.cmdLine) s s') :
    PartsInv path start (ls ++ [l]) s' := by
  cases hdoes with
  | nothing _ => exact h.snoc l
  | prompt hclass hprompt =>
    have hsnoc := h.snoc l
    exact ⟨h.fgPid, h.table, hsnoc.dirs, isPrompt_of_newPrompt hclass hprompt⟩
  | cd hclass =>
    have hlast : cdCommands (ls ++ [l]) = cdCommands ls ++ [(l.args, l.commandCalls.cd)] := by
      rw [cdCommands_snoc, if_pos hclass]
    exact h.setDirs hlast hpossible
  | jobs _ =>
    exact (h.snoc l).setShell h.fgPid (h.table.removeFinishedJobs l.commandCalls.reapAgain)
  | fg _ =>
    -- whatever becomes of the job, the shell has the foreground again
    have hpid := fgExecute_pid (params (executed l.cmdLine)) l.commandCalls.reapAgain
      l.commandCalls.fgWait s.shell
    have hfg := fgExecute_fgPid (params (executed l.cmdLine)) l.commandCalls.reapAgain
      l.commandCalls.fgWait s.shell h.fgPid
    exact (h.snoc l).setShell (hfg.trans hpid.symm) (fgExecute_table _ _ _ _ h.table)
  | background _ _ =>
    -- the only command that adds a job, with an id that is an `int`
    exact (h.snoc l).setShell h.fgPid (h.table.addJob l.commandCalls.reapAgain
      (some (executed l.cmdLine)) l.commandCalls.fork hids)
  | foreground _ => exact (h.snoc l).setShell rfl h.table
  | pipe _ =>
    have hsnoc := h.snoc l
    exact ⟨h.fgPid, h.table, hsnoc.dirs, hsnoc.prompt⟩

theorem lineDoes (h : PartsInv path start ls s)
    (hpossible : l.commandCalls.cd.Possible path l.args s.dirs)
    (hids : s.shell.jobs.maxIndex < 2 ^ 31 - 1)
    (hline : LineDoes path l.commandCalls (executed l.cmdLine) s s') :
    PartsInv path start (ls ++ [l]) s' := by
  obtain htidied | ⟨s₁, s₂, hbefore, hdoes, hafter⟩ := hline
  · exact (h.tidied htidied).snoc l
  · -- the answers are about the directories before the line, as they are at its command
    rw [← hbefore.sameParts.dirs] at hpossible
    have hids' := (hbefore.maxIndex_le h.table).1.trans_lt hids
    exact ((h.tidied hbefore).does hpossible hids' hdoes).tidied hafter

end PartsInv

/-- The sessions in which the next id is below `INT_MAX` before every line. -/
def counting (path : Dir → String) : System (State Dir File) (Typed Dir File) :=
  (session path).restrict fun s _ => s.shell.jobs.maxIndex < 2 ^ 31 - 1

section Parts

variable {path : Dir → String} {s₀ s : State Dir File} {ls : List (Typed Dir File)}

/-- **The parts of the shell along every session.** Whatever is typed and whatever the system
answers, as long as the next id is below `INT_MAX` before every line: between two lines the shell
itself is in the foreground, the job table has increasing ids below the next one and at most a
hundred jobs, the two directories are those that some of the `cd` commands typed so far lead to on
their own, from the directories of the start, and the prompt is the first one or the argument of a
`chprompt` that was typed. -/
theorem session_parts (h₀ : (session path).init s₀) (hrun : (counting path).Run s₀ ls s) :
    s.shell.foregroundCommandPid = s.shell.pid ∧
      s.shell.jobs.jobsList.Pairwise (fun i j => i.jobId < j.jobId) ∧
      (∀ j ∈ s.shell.jobs.jobsList, 1 ≤ j.jobId ∧ j.jobId < s.shell.jobs.maxIndex) ∧
      s.shell.jobs.jobsList.length ≤ 100 ∧
      (∃ cds u, List.Sublist cds (cdCommands ls) ∧
        (ChangeDir.session path).Run ⟨s₀.dirs, false⟩ cds u ∧ u.state = s.dirs) ∧
      IsPrompt ls s.prompt := by
  -- by induction on the lines of the session
  have hinv : PartsInv path s₀.dirs ls s := by
    induction hrun with
    | nil =>
      obtain ⟨hshell, hprompt, -⟩ := h₀
      refine ⟨?_, ?_, ⟨[], _, List.Sublist.refl _, .nil, rfl⟩, Or.inl hprompt⟩
      · rw [hshell]
        rfl
      · rw [hshell]
        exact JobsList.TableInv.initial
    | snoc _ hstep ih =>
      obtain ⟨hids, hstep⟩ := hstep
      exact ih.lineDoes hstep.1 hids (lineDoes_of_step hstep)
  have htable := hinv.table
  refine ⟨hinv.fgPid, htable.ids_increasing, fun j hj => ?_, ?_, hinv.dirs, hinv.prompt⟩
  · exact ⟨htable.id_pos j hj, htable.id_lt j hj⟩
  · -- the table counts its jobs in an `int`
    have hlength : (s.shell.jobs.jobsList.length : Int) ≤ 100 :=
      htable.length_le.trans htable.curSize_le
    exact_mod_cast hlength

end Parts

/-- One directory, the root. -/
def rootOnly : Unit → String := fun _ => "/"

/-- Every call succeeds, and no job finishes. -/
def sampleCalls : Calls Unit String where
  reap _ := .running
  reapAgain _ := .running
  fork := 7
  waited := true
  fgWait := .exited
  killed _ := true
  pwdMalloc := true
  pwdGetcwd := true
  cd := ⟨true, true, true, some ()⟩
  pipe := (.opened ("pipe", "pipe"), .closed, .closed)
  children := ([], [])
  redirect := RedirectionCommand.allSucceed

/-- The shell with pid `1` at the start. -/
def sampleShell : State Unit String :=
  ⟨SmallShell.initial 1, "smash> ", ⟨(), ChangeDir.notSet⟩, RedirectionCommand.terminal⟩

/-- A job is started in the background, and then the prompt is changed. -/
def sampleAfter : State Unit String :=
  { sampleShell with
    shell := ⟨1, 1, ⟨[⟨"sleep 5&", 7, 1, 0⟩], 2, 1⟩⟩
    prompt := "ab> " }

/-- The two lines. -/
def sampleLines : List (Typed Unit String) :=
  [⟨sampleCalls, sampleCalls, "sleep 5&"⟩, ⟨sampleCalls, sampleCalls, "chprompt ab"⟩]

theorem run_sampleLines : (counting rootOnly).Run sampleShell sampleLines sampleAfter := by
  have hpossible : ∀ args d, sampleCalls.cd.Possible rootOnly args d := fun _ _ _ _ _ _ _ _ => rfl
  have hjob : (counting rootOnly).step sampleShell ⟨sampleCalls, sampleCalls, "sleep 5&"⟩
      { sampleAfter with prompt := "smash> " } :=
    ⟨by decide, hpossible _ _, [], rfl⟩
  have hprompt : (counting rootOnly).step { sampleAfter with prompt := "smash> " }
      ⟨sampleCalls, sampleCalls, "chprompt ab"⟩ sampleAfter :=
    ⟨by decide, hpossible _ _, [], rfl⟩
  exact (System.Run.nil.snoc hjob).snoc hprompt

theorem session_parts_sampleAfter :
    IsPrompt sampleLines "ab> " ∧ sampleAfter.shell.jobs.jobsList.length = 1 ∧
      ∀ j ∈ sampleAfter.shell.jobs.jobsList, 1 ≤ j.jobId ∧ j.jobId < 2 := by
  obtain ⟨-, -, hids, -, -, hprompt⟩ := session_parts ⟨rfl, rfl, rfl⟩ run_sampleLines
  exact ⟨hprompt, rfl, hids⟩

/-! ### What a line leaves alone -/

/-- What a line can have changed, by the class of its command. -/
structure LineFrame (a : Calls Dir File) (cmdLine : String) (s s' : State Dir File) : Prop where
  prompt : s'.prompt ≠ s.prompt → createCommand cmdLine = .chprompt
  dirs : s'.dirs ≠ s.dirs → createCommand cmdLine = .cd
  pid : s'.shell.pid = s.shell.pid
  /-- A job is added by an external command in the background, and it is this command. -/
  jobs : s'.shell.jobs.jobsList.Sublist s.shell.jobs.jobsList ∨
    createCommand cmdLine = .external ∧ isBackgroundCommand cmdLine = some true ∧
      ∃ j : JobEntry, j.cmd = cmdLine ∧ j.jobPid = a.fork ∧
        s'.shell.jobs.jobsList.Sublist (s.shell.jobs.jobsList ++ [j])

theorem removeJobById_sublist (jobId : Int) (l : JobsList) :
    (l.removeJobById jobId).jobsList.Sublist l.jobsList := by
  unfold JobsList.removeJobById
  split
  · dsimp only
    split <;> exact List.eraseP_sublist
  · exact List.Sublist.refl _

theorem fgExecute_sublist (ps : List String) (wp : ℕ → WaitResult) (res : FgWait)
    (sh : SmallShell) :
    (fgExecute ps wp res sh).shell.jobs.jobsList.Sublist sh.jobs.jobsList := by
  have hreap := JobsList.removeFinishedJobs_sublist wp sh.jobs
  unfold fgExecute
  dsimp only
  split
  · exact hreap
  · cases res with
    | failed | stopped => exact hreap
    | exited | signaled => exact (removeJobById_sublist _ _).trans hreap

theorem addJob_sublist (wp : ℕ → WaitResult) (cmdLine : String) (jPid : Int) (l : JobsList) :
    ∃ j : JobEntry, j.cmd = cmdLine ∧ j.jobPid = jPid ∧
      (l.addJob wp (some cmdLine) jPid).jobsList.Sublist (l.jobsList ++ [j]) := by
  have hreap := JobsList.removeFinishedJobs_sublist wp l
  unfold JobsList.addJob
  dsimp only
  refine ⟨⟨cmdLine, jPid, (l.removeFinishedJobs wp).maxIndex, (l.removeFinishedJobs wp).curSize⟩,
    rfl, rfl, ?_⟩
  split
  · exact hreap.trans (List.sublist_append_left _ _)
  · exact hreap.append (List.Sublist.refl _)

section Frame

variable {path : Dir → String} {a b : Calls Dir File} {cmdLine : String}
  {s s' s'' : State Dir File}

theorem Does.frame (h : Does path a cmdLine s s') : LineFrame a cmdLine s s' := by
  cases h with
  | nothing _ =>
    exact ⟨fun h => absurd rfl h, fun h => absurd rfl h, rfl, Or.inl (List.Sublist.refl _)⟩
  | prompt hclass _ =>
    exact ⟨fun _ => hclass, fun h => absurd rfl h, rfl, Or.inl (List.Sublist.refl _)⟩
  | cd hclass =>
    exact ⟨fun h => absurd rfl h, fun _ => hclass, rfl, Or.inl (List.Sublist.refl _)⟩
  | jobs _ =>
    exact ⟨fun h => absurd rfl h, fun h => absurd rfl h, rfl,
      Or.inl (JobsList.removeFinishedJobs_sublist _ _)⟩
  | fg _ =>
    have hpid := fgExecute_pid (params cmdLine) a.reapAgain a.fgWait s.shell
    have hjobs := fgExecute_sublist (params cmdLine) a.reapAgain a.fgWait s.shell
    -- only these two facts about `fg` matter
    generalize fgExecute (params cmdLine) a.reapAgain a.fgWait s.shell = run at hpid hjobs
    exact ⟨fun h => absurd rfl h, fun h => absurd rfl h, hpid, Or.inl hjobs⟩
  | background hclass hbackground =>
    -- the new job is behind those that are left
    have hjob := addJob_sublist a.reapAgain cmdLine a.fork s.shell.jobs
    exact ⟨fun h => absurd rfl h, fun h => absurd rfl h, rfl,
      Or.inr ⟨hclass, hbackground, hjob⟩⟩
  | foreground _ | pipe _ =>
    exact ⟨fun h => absurd rfl h, fun h => absurd rfl h, rfl, Or.inl (List.Sublist.refl _)⟩

theorem Tidied.frame (h : Tidied s s') : LineFrame a cmdLine s s' := by
  have hsame := h.sameParts
  exact ⟨fun hne => absurd hsame.prompt hne, fun hne => absurd hsame.dirs hne, hsame.pid,
    Or.inl h.jobs_sublist⟩

/-- What happens around a command leaves its frame as it is. -/
theorem LineFrame.tidied {s₁ s₂ : State Dir File} (hbefore : Tidied s s₁)
    (h : LineFrame a cmdLine s₁ s₂) (hafter : Tidied s₂ s') : LineFrame a cmdLine s s' := by
  have hs := hbefore.sameParts
  have hs' := hafter.sameParts
  refine ⟨?_, ?_, ?_, ?_⟩
  · rw [hs'.prompt, ← hs.prompt]
    exact h.prompt
  · rw [hs'.dirs, ← hs.dirs]
    exact h.dirs
  · rw [hs'.pid, h.pid, hs.pid]
  · -- jobs can go before the command and after it, and a new one can go as well
    obtain hjobs | ⟨hclass, hbackground, j, hcmd, hpid, hjobs⟩ := h.jobs
    · exact Or.inl (hafter.jobs_sublist.trans (hjobs.trans hbefore.jobs_sublist))
    · refine Or.inr ⟨hclass, hbackground, j, hcmd, hpid, ?_⟩
      exact hafter.jobs_sublist.trans
        (hjobs.trans (hbefore.jobs_sublist.append (List.Sublist.refl _)))

theorem LineDoes.frame (h : LineDoes path a cmdLine s s') : LineFrame a cmdLine s s' := by
  obtain htidied | ⟨s₁, s₂, hbefore, hdoes, hafter⟩ := h
  · exact htidied.frame
  · exact .tidied hbefore hdoes.frame hafter

/-- **What a line leaves alone.** In any state, with any answers and for any text whose execution is
defined (a line of twenty words or more writes behind an array): the prompt changes only at
`chprompt`, the directories only at `cd`, a job comes only from an external command in the
background, and nothing but `quit` ends the shell. With a `|` in front of the first arrow the
command is a pipe, so that its two sides do none of this to the shell, `quit` included. -/
theorem line_frame (path : Dir → String) (a b : Calls Dir File) (cmdLine : String)
    (s : State Dir File) :
    (executeCommand path a b cmdLine s).Ends
        (fun s' _ => LineFrame (callsOf a b cmdLine) (executed cmdLine) s s')
        (fun _ => createCommand (executed cmdLine) = .quit) ∧
      ('|' ∈ beforeArrow cmdLine → createCommand (executed cmdLine) = .pipe) := by
  refine ⟨(executeCommand_ends path a b cmdLine s).imp (fun _ _ h => h.frame) fun _ h => h, ?_⟩
  intro hpipe
  -- the command in front of the arrow has the `|` and no arrow
  refine createCommand_of_pipe (arrow_notMem_executed cmdLine) ?_
  rw [← pipe_mem_core_iff, core_executed, pipe_mem_core_iff]
  exact hpipe

end Frame

end Smash
end Shell
end OsHomework
