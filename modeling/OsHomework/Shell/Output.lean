import OsHomework.Shell.Smash
import OsHomework.Shell.Storage

/-!
# Where the text goes

The descriptors of the shell over whole sessions of typed lines, and the file that each text is
written to, by the shell or by a process that it has started. A command leaves every open descriptor
as it is (`Does.extends`): a pipe that could be opened closes what it has opened, and no other
command touches the table of the shell. Around a command a redirection
moves descriptor `1` to the file and back (`redirected_text`).

So as long as the calls that move it back succeed, and `pipe` does, the three standard descriptors
are the same before every line, what a command prints goes to the file behind the arrow or else to
the standard output of the start, and no error ever goes to a file (`output_destination`).

On the descriptors alone a redirection is `RedirectionCommand.execute` (`redirect_fds`), and
`exits_iff` says for which lines and answers the shell ends.
-/

namespace OsHomework
namespace Shell
namespace Smash

variable {Dir File : Type}

open FdTable

/-- The three standard descriptors are open. -/
def StdOpen (t : FdTable File) : Prop := ∀ fd < 3, fd ∈ t.openFds

/-- The three standard descriptors refer to the same files. -/
def SameStd (t t' : FdTable File) : Prop := ∀ fd < 3, t'.file fd = t.file fd

/-- Once descriptor `1` has been moved, the calls that move it back succeed. -/
def Undone (a : Answers File) : Prop :=
  a.dup2File = true → a.closeFile = .closed ∧ a.dup2Stdout = true

/-- `pipe` succeeds. -/
def Pipes (a : PipeAnswer File × CloseAnswer × CloseAnswer) : Prop := ∃ ends, a.1 = .opened ends

/-- The file that `open` answers for a redirection. -/
def opened (a : Answers File) (p : Parts) : Option File :=
  a.openFile (String.ofList p.second)
    (if p.marked then [.creat, .rdwr, .append] else [.creat, .rdwr, .trunc])

/-- The text of `std::cout` goes to `target`, and that of an error to the standard error of `t`. -/
def Goes (t : FdTable File) (target : Option File) (printed : List (Printed File)) : Prop :=
  ∀ x ∈ printed, x.file = match x.stream with
    | .stdout => target
    | .stderr => t.file 2

/-- Where the text of a line goes. -/
def target (a : Calls Dir File) (cmdLine : String) (t : FdTable File) : Option File :=
  if '>' ∈ cmdLine.toList then (mkRedirection cmdLine).bind (opened a.redirect) else t.file 1

/-! ### One command -/

section Tables

variable {t t' t'' : FdTable File} {f : Option File} {printed printed' : List (Printed File)}

theorem SameStd.trans (h : SameStd t t') (h' : SameStd t' t'') : SameStd t t'' :=
  fun fd hfd => (h' fd hfd).trans (h fd hfd)

theorem StdOpen.sameStd (h : StdOpen t) (h' : t.Extends t') : SameStd t t' :=
  fun fd hfd => h' fd (h fd hfd)

theorem StdOpen.of_sameStd (h : StdOpen t) (h' : SameStd t t') : StdOpen t' := by
  intro fd hfd
  rw [mem_openFds, h' fd hfd]
  exact h fd hfd

/-- A descriptor that is free is none of the three. -/
theorem StdOpen.three_le (h : StdOpen t) {fd : ℕ} (hfd : fd ∉ t.openFds) : 3 ≤ fd :=
  not_lt.mp fun hlt => hfd (h fd hlt)

theorem goes_nil : Goes t f [] := fun _ hx => absurd hx List.not_mem_nil

theorem goes_append : Goes t f (printed ++ printed') ↔ Goes t f printed ∧ Goes t f printed' :=
  List.forall_mem_append

theorem PrintedTo.goes (h : PrintedTo t printed) (hout : t.file 1 = f)
    (herr : t.file 2 = t'.file 2) : Goes t' f printed := by
  intro x hx
  have hfile := h x hx
  obtain ⟨stream, file, text⟩ := x
  cases stream with
  | stdout => exact hfile.trans hout
  | stderr => exact hfile.trans herr

/-- Errors go to the standard error. -/
theorem goes_print (s : State Dir File) (err : List String) (h : s.fds.file 2 = t.file 2) :
    Goes t f (s.print [] err) := by
  intro x hx
  obtain ⟨text, -, rfl⟩ := List.mem_map.mp hx
  exact h

theorem extends_pipeFds (t : FdTable File) (ends : File × File) (close₀ close₁ : CloseAnswer) :
    t.Extends (RedirectionCommand.pipeFds ends close₀ close₁ t) := by
  have h₀ : t.lowestFree ∉ t.openFds := t.lowestFree_notMem
  -- the write end gets the lowest descriptor that is free beside the read end
  have h₁ : (t.install t.lowestFree ends.1).lowestFree ∉ t.openFds := fun hmem =>
    (t.install t.lowestFree ends.1).lowestFree_notMem (mem_openFds_install.mpr (Or.inr hmem))
  exact (((Extends.rfl.install h₀).install h₁).close close₀ h₀).close close₁ h₁

end Tables

section Text

variable {path : Dir → String} {a : Answers File} {b : Calls Dir File} {cmdLine : String}
  {s s' : State Dir File}

theorem pipeTable_of_pipes {a : PipeAnswer File × CloseAnswer × CloseAnswer} {ends : File × File}
    (h : a.1 = .opened ends) (t : FdTable File) :
    pipeTable a t = RedirectionCommand.pipeFds ends a.2.1 a.2.2 t := by
  rw [pipeTable, h]

theorem Does.extends (hpipe : Pipes b.pipe) (h : Does path b cmdLine s s') :
    s.fds.Extends s'.fds := by
  cases h with
  | pipe _ =>
    obtain ⟨ends, hends⟩ := hpipe
    dsimp only
    rw [pipeTable_of_pipes hends]
    exact extends_pipeFds _ _ _ _
  | nothing | prompt | cd | jobs | fg | background | foreground => exact Extends.rfl

theorem runCommand_text (path : Dir → String) (hpipe : Pipes b.pipe) (cmdLine : String)
    (s : State Dir File) :
    (runCommand path b cmdLine s).Ends
      (fun s' out => s.fds.Extends s'.fds ∧ PrintedTo s.fds out) (PrintedTo s.fds) :=
  (runCommand_ends path b cmdLine s).imp (fun _ _ h => ⟨h.1.extends hpipe, h.2⟩) fun _ h => h.2

theorem executePlain_text (path : Dir → String) (hpipe : Pipes b.pipe) (cmdLine : String)
    (s : State Dir File) :
    (executePlain path b cmdLine s).Ends
      (fun s' out => s.fds.Extends s'.fds ∧ PrintedTo s.fds out) (PrintedTo s.fds) := by
  unfold executePlain
  split
  · exact .ready ⟨Extends.rfl, printedTo_nil⟩
  · rw [Ran.ends_after]
    have hnote : PrintedTo s.fds (s.print [] (reapNote b.reap s.shell.jobs)) :=
      printedTo_print _ _ _
    have htext := runCommand_text path hpipe cmdLine
      (s.setJobs (s.shell.jobs.removeFinishedJobs b.reap))
    refine htext.imp (fun s' out h => ⟨h.1, ?_⟩) fun out h => ?_
    · exact printedTo_append.mpr ⟨hnote, h.2⟩
    · exact printedTo_append.mpr ⟨hnote, h⟩

/-! ### Redirections -/

/-- A redirection whose file is opened and whose `dup(1)` succeeds. -/
theorem redirect_eq {p : Parts} {f g : File} (hopen : opened a p = some f)
    (hdup : a.dupStdout = true) (hstdout : s.fds.file 1 = some g) {t : FdTable File}
    (ht : s.fds.install s.fds.lowestFree f = t) :
    redirect path a b p s =
      redirected path a b s.fds.lowestFree t.lowestFree (String.ofList p.first)
        { s with fds := t.install t.lowestFree g } := by
  -- descriptor `1` is open, so that the file did not get it
  have hne : 1 ≠ s.fds.lowestFree := by
    intro heq
    rw [heq, file_lowestFree] at hstdout
    cases hstdout
  have hone : t.file 1 = some g := by rw [← ht, file_install_of_ne hne, hstdout]
  have hcopy : t.dup a.dupStdout 1 = (some t.lowestFree, t.install t.lowestFree g) := by
    rw [hdup]
    unfold FdTable.dup
    rw [hone]
  unfold opened at hopen
  unfold redirect
  dsimp only
  rw [hopen]
  dsimp only
  rw [ht, hcopy]

/-- What follows `dup(1)`, by the answers of the two calls. -/
theorem redirected_eq {fdtFile : ℕ} {f : File} (hfile : s.fds.file fdtFile = some f)
    (ogStdoutFdt : ℕ) (cmdLine : String) :
    redirected path a b fdtFile ogStdoutFdt cmdLine s =
      if a.dup2File = true then
        if a.closeFile = .closed then
          restore a.dup2Stdout ogStdoutFdt
            (executePlain path b cmdLine { s with fds := (s.fds.install 1 f).release fdtFile })
        else
          let s := { s with fds := ((s.fds.install 1 f).close a.closeFile fdtFile).2 }
          .ready s (s.print [] ["smash error: close failed"])
      else .ready s (s.print [] ["smash error: dup2 failed"]) := by
  unfold redirected
  rw [dup2_eq hfile]
  cases a.dup2File with
  | false => rfl
  | true => cases a.closeFile <;> rfl

/-- The part behind `dup(1)`: descriptor `1` refers to the file as long as the command is executed,
and to what it was before afterwards. -/
theorem redirected_text (path : Dir → String) (hpipe : Pipes b.pipe) {fdtFile ogStdoutFdt : ℕ}
    {f g : File} (hundone : Undone a)
    (hstd : StdOpen s.fds) (hfile : s.fds.file fdtFile = some f) (hfdt : 3 ≤ fdtFile)
    (hsaved : s.fds.file ogStdoutFdt = some g) (hog : 3 ≤ ogStdoutFdt)
    (hne : ogStdoutFdt ≠ fdtFile) (hstdout : s.fds.file 1 = some g) (cmdLine : String) :
    (redirected path a b fdtFile ogStdoutFdt cmdLine s).Ends
      (fun s' out => SameStd s.fds s'.fds ∧ Goes s.fds (some f) out)
      (Goes s.fds (some f)) := by
  rw [redirected_eq hfile]
  by_cases hdup2 : a.dup2File = true
  · obtain ⟨hclose, hback⟩ := hundone hdup2
    rw [if_pos hdup2, if_pos hclose, hback]
    -- the table while the command is executed
    generalize htable : (s.fds.install 1 f).release fdtFile = t
    have hkeep : ∀ fd, fd ≠ fdtFile → fd ≠ 1 → t.file fd = s.fds.file fd := by
      intro fd hfd hone
      rw [← htable, file_release_of_ne hfd, file_install_of_ne hone]
    have hone : t.file 1 = some f := by
      rw [← htable, file_release_of_ne (by omega), file_install_self]
    have htwo : t.file 2 = s.fds.file 2 := hkeep 2 (by omega) (by omega)
    have htext := executePlain_text path hpipe cmdLine { s with fds := t }
    cases hrun : executePlain path b cmdLine { s with fds := t } with
    | ready s' out =>
      rw [hrun] at htext
      obtain ⟨hextends, hprinted⟩ : t.Extends s'.fds ∧ PrintedTo t out := by
        cases htext with
        | ready h => exact h
      -- the copy is still there, whatever the command has opened and closed
      have hog' : s'.fds.file ogStdoutFdt = some g := by
        have hmem : ogStdoutFdt ∈ t.openFds := by
          rw [mem_openFds, hkeep _ hne (by omega), hsaved]
          rfl
        rw [hextends _ hmem, hkeep _ hne (by omega), hsaved]
      unfold restore
      dsimp only
      rw [dup2_eq hog']
      refine .ready ⟨fun fd hfd => ?_, ?_⟩
      · dsimp only
        -- descriptor `1` is moved back, and the others were never touched
        by_cases hfd1 : fd = 1
        · rw [hfd1, if_pos rfl, file_install_self, hstdout]
        · have hmem : fd ∈ t.openFds := by
            rw [mem_openFds, hkeep fd (by omega) hfd1]
            exact hstd fd hfd
          rw [if_pos rfl, file_install_of_ne hfd1, hextends fd hmem, hkeep fd (by omega) hfd1]
      · rw [if_pos rfl, if_pos rfl, List.append_nil]
        exact hprinted.goes hone htwo
    | exited out =>
      rw [hrun] at htext
      cases htext with
      | exited h => exact .exited (h.goes hone htwo)
    | undefined => exact .undefined
  · rw [if_neg hdup2]
    -- `dup2` has failed, and only the error is printed
    exact .ready ⟨fun _ _ => rfl, goes_print s _ rfl⟩

theorem redirect_text (path : Dir → String) (hpipe : Pipes b.pipe) (hundone : Undone a)
    (hstd : StdOpen s.fds) (p : Parts) :
    (redirect path a b p s).Ends
      (fun s' out => SameStd s.fds s'.fds ∧ Goes s.fds (opened a p) out)
      (Goes s.fds (opened a p)) := by
  have hfree : s.fds.lowestFree ∉ s.fds.openFds := s.fds.lowestFree_notMem
  unfold redirect
  dsimp only
  cases hopen : a.openFile (String.ofList p.second)
      (if p.marked then [.creat, .rdwr, .append] else [.creat, .rdwr, .trunc]) with
  | none => exact .ready ⟨fun _ _ => rfl, goes_print s _ rfl⟩
  | some f =>
    have htarget : opened a p = some f := hopen
    rw [htarget]
    dsimp only
    -- the table with the file, and what `dup` makes of it
    generalize htable : s.fds.install s.fds.lowestFree f = t
    have hext : s.fds.Extends t := htable ▸ Extends.rfl.install hfree
    have hfile : t.file s.fds.lowestFree = some f := by rw [← htable, file_install_self]
    obtain ⟨g, hg⟩ := Option.isSome_iff_exists.mp (hstd 1 (by omega))
    have hone : t.file 1 = some g := (hext 1 (hstd 1 (by omega))).trans hg
    have hdupext : t.Extends (t.dup a.dupStdout 1).2 := Extends.dup t a.dupStdout 1
    cases hdup : t.dup a.dupStdout 1 with
    | mk fd t' =>
      rw [hdup] at hdupext
      -- what was open at the start is open still, and refers to the same files
      have hst : s.fds.Extends t' := hext.trans hdupext
      cases fd with
      | none =>
        refine .ready ⟨hstd.sameStd (hst.close a.closeAfterDup hfree), goes_print s _ rfl⟩
      | some og =>
        obtain ⟨hnew, -⟩ := dup_eq_some (congrArg Prod.fst hdup)
        have hogfile : t'.file og = some g := by
          have h := file_dup (congrArg Prod.fst hdup)
          rw [hdup] at h
          exact h.trans hone
        have hmem : s.fds.lowestFree ∈ t.openFds := by
          rw [mem_openFds, hfile]
          rfl
        have hne : og ≠ s.fds.lowestFree := fun heq => hnew (heq ▸ hmem)
        -- both new descriptors lie above the standard ones
        have hog : 3 ≤ og := hstd.three_le fun h => hnew (hext.mem h)
        have hsame : SameStd s.fds t' := hstd.sameStd hst
        have htext := redirected_text path hpipe (s := { s with fds := t' })
          hundone (hstd.of_sameStd hsame) ((hdupext _ hmem).trans hfile) (hstd.three_le hfree)
          hogfile hog hne ((hdupext 1 (by rw [mem_openFds, hone]; rfl)).trans hone)
          (String.ofList p.first)
        have hgoes : ∀ out, Goes t' (some f) out → Goes s.fds (some f) out := by
          intro out h x hx
          rw [h x hx, hsame 2 (by omega)]
        exact htext.imp (fun s' out h => ⟨hsame.trans h.1, hgoes out h.2⟩) hgoes

theorem createAndExecute_text (path : Dir → String) {a : Calls Dir File}
    (hpipe : Pipes (callsOf a b cmdLine).pipe) (hundone : Undone a.redirect)
    (hstd : StdOpen s.fds) :
    (createAndExecute path a b cmdLine s).Ends
      (fun s' out => SameStd s.fds s'.fds ∧ Goes s.fds (target a cmdLine s.fds) out)
      (Goes s.fds (target a cmdLine s.fds)) := by
  unfold createAndExecute target
  unfold callsOf at hpipe
  by_cases harrow : '>' ∈ cmdLine.toList
  · rw [if_pos harrow] at hpipe
    rw [if_pos (createCommand_of_arrow harrow), if_pos harrow]
    cases mkCommand cmdLine with
    | none => exact .undefined
    | some cmd =>
      cases hp : mkRedirection cmdLine with
      | none => exact .undefined
      | some p => exact redirect_text path hpipe hundone hstd p
  · rw [if_neg harrow] at hpipe
    rw [if_neg (createCommand_of_plain harrow), if_neg harrow]
    refine (runCommand_text path hpipe cmdLine s).imp (fun s' out h => ⟨?_, ?_⟩) fun out h => ?_
    · exact hstd.sameStd h.1
    · exact h.2.goes rfl rfl
    · exact h.goes rfl rfl

/-- One line: the standard descriptors are the same afterwards, and where its text goes. -/
theorem executeCommand_text (path : Dir → String) {a : Calls Dir File}
    (hpipe : Pipes (callsOf a b cmdLine).pipe) (hundone : Undone a.redirect)
    (hstd : StdOpen s.fds) :
    (executeCommand path a b cmdLine s).Ends
      (fun s' out => SameStd s.fds s'.fds ∧ Goes s.fds (target a cmdLine s.fds) out)
      (Goes s.fds (target a cmdLine s.fds)) := by
  unfold executeCommand
  split
  · exact .ready ⟨fun _ _ => rfl, goes_nil⟩
  · rw [Ran.ends_after]
    have hnote : Goes s.fds (target a cmdLine s.fds)
        (s.print [] (reapNote a.reap s.shell.jobs)) := goes_print s _ rfl
    -- the pass over the job table leaves the descriptors alone
    have htext := createAndExecute_text path
      (s := s.setJobs (s.shell.jobs.removeFinishedJobs a.reap)) hpipe hundone hstd
    refine htext.imp (fun s' out h => ⟨h.1, ?_⟩) fun out h => ?_
    · exact goes_append.mpr ⟨hnote, h.2⟩
    · exact goes_append.mpr ⟨hnote, h⟩

end Text

/-! ### Sessions -/

/-- The calls succeed that could leave a standard descriptor moved or closed: `pipe`, and those that
move descriptor `1` back. -/
structure Undoes (l : Typed Dir File) : Prop where
  redirect : Undone l.calls.redirect
  pipe : Pipes l.commandCalls.pipe

/-- The sessions in which they do. -/
def undoing (path : Dir → String) : System (State Dir File) (Typed Dir File) :=
  (session path).restrict fun _ l => Undoes l

theorem sameStd_of_line {path : Dir → String} {l : Typed Dir File}
    {s t : State Dir File} {out : List (Printed File)} (hundoes : Undoes l)
    (hstd : StdOpen s.fds)
    (h : executeCommand path l.calls l.innerCalls l.cmdLine s = .ready t out) :
    SameStd s.fds t.fds := by
  have htext := executeCommand_text path hundoes.pipe hundoes.redirect hstd
  rw [h] at htext
  cases htext with
  | ready h => exact h.1

theorem sameStd_of_run {path : Dir → String} {s t : State Dir File} {ls : List (Typed Dir File)}
    (hstd : StdOpen s.fds) (hrun : (undoing path).Run s ls t) : SameStd s.fds t.fds := by
  -- the invariant is that descriptors `0`, `1` and `2` refer to the files of the start
  have hstep : ∀ t l u, SameStd s.fds t.fds → (undoing path).step t l u →
      SameStd s.fds u.fds := by
    rintro t l u hsame ⟨hundoes, -, printed, hline⟩
    exact hsame.trans (sameStd_of_line hundoes (hstd.of_sameStd hsame) hline)
  have hsame := hrun.invariant hstep fun _ _ => rfl
  exact hsame

/-- **Where the text goes.** In every session in which `pipe` and the calls that move descriptor `1`
back succeed, the three standard descriptors refer to the files of the start after every line. A
line with an arrow prints to the file that `open` has answered for the name behind the arrow, every
other line to the standard output of the start, and errors go to its standard error, whatever the
command is and also if it ends the shell; this is so for the text of the shell and for that of the
processes that the line starts. -/
theorem output_destination {path : Dir → String} {s t : State Dir File}
    {ls : List (Typed Dir File)} (hstd : StdOpen s.fds) (hrun : (undoing path).Run s ls t)
    (l : Typed Dir File) (hundoes : Undoes l) :
    (executeCommand path l.calls l.innerCalls l.cmdLine t).Ends
      (fun t' out => SameStd s.fds t'.fds ∧ Goes s.fds (target l.calls l.cmdLine s.fds) out)
      (Goes s.fds (target l.calls l.cmdLine s.fds)) := by
  have hsame := sameStd_of_run hstd hrun
  -- the tables before the line and at the start agree on the standard descriptors
  have htarget : target l.calls l.cmdLine t.fds = target l.calls l.cmdLine s.fds := by
    unfold target
    rw [hsame 1 (by decide)]
  have hgoes : ∀ out, Goes t.fds (target l.calls l.cmdLine t.fds) out →
      Goes s.fds (target l.calls l.cmdLine s.fds) out := by
    intro out h x hx
    rw [h x hx, htarget, hsame 2 (by decide)]
  have htext := executeCommand_text path hundoes.pipe hundoes.redirect (hstd.of_sameStd hsame)
  exact htext.imp (fun t' out h => ⟨hsame.trans h.1, hgoes out h.2⟩) hgoes

theorem lowestFree_terminal : RedirectionCommand.terminal.lowestFree = 3 := by
  refine (Nat.find_eq_iff _).mpr ⟨rfl, fun n hn => ?_⟩
  have hopen : RedirectionCommand.terminal.file n = some "terminal" := if_pos hn
  rw [hopen]
  exact Option.some_ne_none _

theorem stdOpen_terminal : StdOpen RedirectionCommand.terminal := by
  intro fd hfd
  have hopen : RedirectionCommand.terminal.file fd = some "terminal" := if_pos hfd
  exact Option.isSome_iff_exists.mpr ⟨_, hopen⟩

/-- `pwd > out` prints to the file. -/
theorem executeCommand_pwd_out :
    ∃ t, executeCommand rootOnly sampleCalls sampleCalls "pwd > out" sampleShell =
      .ready { sampleShell with fds := t } [⟨.stdout, some "out", "/"⟩] := by
  have hline : executeCommand rootOnly sampleCalls sampleCalls "pwd > out" sampleShell =
      (redirect rootOnly RedirectionCommand.allSucceed sampleCalls
        ⟨"pwd".toList, false, "out".toList⟩ sampleShell).after [] := rfl
  generalize htable :
    RedirectionCommand.terminal.install RedirectionCommand.terminal.lowestFree "out" = t
  have hredirect : redirect rootOnly RedirectionCommand.allSucceed sampleCalls
      ⟨"pwd".toList, false, "out".toList⟩ sampleShell =
      redirected rootOnly RedirectionCommand.allSucceed sampleCalls
        RedirectionCommand.terminal.lowestFree t.lowestFree "pwd"
        { sampleShell with fds := t.install t.lowestFree "terminal" } :=
    redirect_eq rfl rfl rfl htable
  have hmem : RedirectionCommand.terminal.lowestFree ∈ t.openFds :=
    htable ▸ mem_openFds_install.mpr (Or.inl rfl)
  have hne : RedirectionCommand.terminal.lowestFree ≠ t.lowestFree :=
    fun heq => t.lowestFree_notMem (heq ▸ hmem)
  have hfile : (t.install t.lowestFree "terminal").file
      RedirectionCommand.terminal.lowestFree = some "out" := by
    rw [file_install_of_ne hne, ← htable, file_install_self]
  have hthree : ∀ n < 3, n ≠ RedirectionCommand.terminal.lowestFree := by
    rw [lowestFree_terminal]
    exact fun n hn => hn.ne
  rw [hline, hredirect, redirected_eq hfile]
  -- the table while `pwd` is executed
  generalize hmoved : ((t.install t.lowestFree "terminal").install 1 "out").release
    RedirectionCommand.terminal.lowestFree = t'
  have hone : t'.file 1 = some "out" := by
    rw [← hmoved, file_release_of_ne (hthree 1 (by decide)), file_install_self]
  have hog : t'.file t.lowestFree = some "terminal" := by
    have hne' : t.lowestFree ≠ 1 := by
      intro heq
      have h1 : 1 ∈ t.openFds := htable ▸ mem_openFds_install.mpr (Or.inr rfl)
      exact t.lowestFree_notMem (heq ▸ h1)
    rw [← hmoved, file_release_of_ne hne.symm, file_install_of_ne hne', file_install_self]
  refine ⟨(t'.dup2 true t.lowestFree 1).2, ?_⟩
  calc _ = (restore true t.lowestFree (.ready { sampleShell with fds := t' }
          [⟨.stdout, t'.file 1, "/"⟩])).after [] := by
        rw [← hmoved]
        rfl
    _ = .ready { sampleShell with fds := (t'.dup2 true t.lowestFree 1).2 }
          [⟨.stdout, some "out", "/"⟩] := by
        rw [hone, restore, dup2_eq hog]
        rfl

/-- `chprompt ab`, and then `pwd > out`. -/
theorem output_destination_sample :
    target sampleCalls "pwd > out" RedirectionCommand.terminal = some "out" ∧
      (executeCommand rootOnly sampleCalls sampleCalls "pwd > out"
        { sampleShell with prompt := "ab> " }).Ends
        (fun t' out => SameStd RedirectionCommand.terminal t'.fds ∧
          Goes RedirectionCommand.terminal (some "out") out)
        (Goes RedirectionCommand.terminal (some "out")) := by
  have hundoes : ∀ cmdLine, Undoes (⟨sampleCalls, sampleCalls, cmdLine⟩ : Typed Unit String) := by
    intro cmdLine
    have hcalls : callsOf sampleCalls sampleCalls cmdLine = sampleCalls := ite_self _
    refine ⟨fun _ => ⟨rfl, rfl⟩, ?_⟩
    unfold Typed.commandCalls
    rw [hcalls]
    exact ⟨_, rfl⟩
  have hstep : (undoing rootOnly).step sampleShell ⟨sampleCalls, sampleCalls, "chprompt ab"⟩
      { sampleShell with prompt := "ab> " } :=
    ⟨hundoes _, fun _ _ _ _ _ _ => rfl, [], rfl⟩
  refine ⟨rfl, ?_⟩
  exact output_destination stdOpen_terminal (.snoc .nil hstep)
    ⟨sampleCalls, sampleCalls, "pwd > out"⟩ (hundoes _)

/-! ### The descriptors that stay open -/

/-- `pipe` succeeds, and so do the calls of `close` behind it. -/
def PipeGranted (a : PipeAnswer File × CloseAnswer × CloseAnswer) : Prop :=
  Pipes a ∧ a.2 = (.closed, .closed)

/-- Every call that a line makes on a descriptor succeeds. -/
structure Granted (l : Typed Dir File) : Prop where
  openFile : ∀ name flags, (l.calls.redirect.openFile name flags).isSome = true
  dupStdout : l.calls.redirect.dupStdout = true
  dup2File : l.calls.redirect.dup2File = true
  closeFile : l.calls.redirect.closeFile = .closed
  dup2Stdout : l.calls.redirect.dup2Stdout = true
  pipe : PipeGranted l.calls.pipe
  innerPipe : PipeGranted l.innerCalls.pipe

theorem finite_openFds (t : FdTable File) : t.openFds.Finite := by
  refine (Set.finite_lt_nat t.limit).subset fun x hx => ?_
  by_contra hle
  have hnone : t.file x = none := t.file_eq_none x (not_lt.mp hle)
  rw [mem_openFds, hnone] at hx
  exact absurd hx Bool.false_ne_true

/-- A pipe whose ends are both closed again leaves no descriptor open. -/
theorem openFds_pipeFds (t : FdTable File) (ends : File × File) :
    (RedirectionCommand.pipeFds ends .closed .closed t).openFds = t.openFds := by
  have h₀ : t.lowestFree ∉ t.openFds := t.lowestFree_notMem
  have h₁ := (t.install t.lowestFree ends.1).lowestFree_notMem
  rw [mem_openFds_install, not_or] at h₁
  ext x
  unfold RedirectionCommand.pipeFds
  dsimp only [FdTable.close]
  -- both ends are opened and both are closed again
  simp only [mem_openFds_release, mem_openFds_install]
  constructor
  · rintro ⟨hne₁, hne₀, rfl | rfl | hx⟩
    · exact absurd rfl hne₁
    · exact absurd rfl hne₀
    · exact hx
  · intro hx
    exact ⟨fun heq => h₁.2 (heq ▸ hx), fun heq => h₀ (heq ▸ hx), Or.inr (Or.inr hx)⟩

section Leak

variable {path : Dir → String} {a b : Calls Dir File} {cmdLine : String} {s s' : State Dir File}
  {out : List (Printed File)}

theorem Does.openFds (h : Does path b cmdLine s s') (hpipe : PipeGranted b.pipe) :
    s'.fds.openFds = s.fds.openFds := by
  cases h with
  | pipe _ =>
    obtain ⟨⟨ends, hends⟩, hclosed⟩ := hpipe
    dsimp only
    rw [pipeTable_of_pipes hends, hclosed]
    exact openFds_pipeFds s.fds ends
  | nothing | prompt | cd | jobs | fg | background | foreground => rfl

theorem openFds_of_runCommand (hpipe : PipeGranted b.pipe)
    (h : runCommand path b cmdLine s = .ready s' out) : s'.fds.openFds = s.fds.openFds := by
  have hends := runCommand_ends path b cmdLine s
  rw [h] at hends
  cases hends with
  | ready h => exact h.1.openFds hpipe

theorem Ran.ready_of_after {printed : List (Printed File)} {ran : Ran Dir File}
    (h : ran.after printed = .ready s out) : ∃ out', ran = .ready s out' := by
  cases ran with
  | ready s' out' =>
    obtain ⟨rfl, -⟩ := Ran.ready.inj h
    exact ⟨out', rfl⟩
  | exited out' => cases h
  | undefined => cases h

theorem openFds_of_executePlain (hpipe : PipeGranted b.pipe)
    (h : executePlain path b cmdLine s = .ready s' out) : s'.fds.openFds = s.fds.openFds := by
  unfold executePlain at h
  split at h
  · rw [(Ran.ready.inj h).1]
  · obtain ⟨out', hrun⟩ := Ran.ready_of_after h
    exact (openFds_of_runCommand hpipe hrun).trans rfl

/-- A redirected command that has returned has left the copy of the standard output open, and
nothing else. -/
theorem openFds_of_redirected {a : Answers File} {fdtFile ogStdoutFdt : ℕ} {f : File}
    (hdup2 : a.dup2File = true) (hclose : a.closeFile = .closed)
    (hpipe : PipeGranted b.pipe) (hfile : s.fds.file fdtFile = some f)
    (hone : 1 ∈ s.fds.openFds) (hfdt : fdtFile ≠ 1)
    (h : redirected path a b fdtFile ogStdoutFdt cmdLine s = .ready s' out) :
    s'.fds.openFds = s.fds.openFds \ {fdtFile} := by
  rw [redirected_eq hfile, if_pos hdup2, if_pos hclose] at h
  cases hrun : executePlain path b cmdLine
      { s with fds := (s.fds.install 1 f).release fdtFile } with
  | exited out' | undefined =>
    rw [hrun] at h
    cases h
  | ready s₁ out' =>
    have hopen := openFds_of_executePlain hpipe hrun
    rw [hrun] at h
    obtain ⟨rfl, -⟩ := Ran.ready.inj h
    -- only the descriptor of the file has been closed
    have hmoved : s₁.fds.openFds = s.fds.openFds \ {fdtFile} := by
      ext x
      rw [hopen, mem_openFds_release, mem_openFds_install, Set.mem_sdiff, Set.mem_singleton_iff]
      constructor
      · rintro ⟨hne, rfl | hx⟩
        · exact ⟨hone, hne⟩
        · exact ⟨hx, hne⟩
      · exact fun h => ⟨h.2, Or.inr h.1⟩
    have hmem : 1 ∈ s₁.fds.openFds := hmoved ▸ ⟨hone, fun heq => hfdt heq.symm⟩
    rw [← hmoved]
    -- moving descriptor `1` back opens none
    dsimp only [FdTable.dup2]
    split
    · ext x
      rw [mem_openFds_install]
      exact ⟨fun hx => hx.elim (fun heq => heq ▸ hmem) id, Or.inr⟩
    · rfl

theorem openFds_of_redirect {l : Typed Dir File} (hl : Granted l) (hstd : StdOpen s.fds)
    {p : Parts} (h : redirect path l.calls.redirect l.innerCalls p s = .ready s' out) :
    ∃ og, og ∉ s.fds.openFds ∧ s'.fds.openFds = insert og s.fds.openFds := by
  have hfree : s.fds.lowestFree ∉ s.fds.openFds := s.fds.lowestFree_notMem
  have hthree : 3 ≤ s.fds.lowestFree := hstd.three_le hfree
  obtain ⟨f, hf⟩ := Option.isSome_iff_exists.mp (hl.openFile (String.ofList p.second)
    (if p.marked then [.creat, .rdwr, .append] else [.creat, .rdwr, .trunc]))
  obtain ⟨g, hg⟩ := Option.isSome_iff_exists.mp (hstd 1 (by decide))
  generalize htable : s.fds.install s.fds.lowestFree f = t
  rw [redirect_eq hf hl.dupStdout hg htable] at h
  -- the copy of descriptor `1` is the one that stays open
  have hnew : t.lowestFree ∉ s.fds.openFds ∧ t.lowestFree ≠ s.fds.lowestFree := by
    have hnot := t.lowestFree_notMem
    rw [← htable, mem_openFds_install, not_or] at hnot
    rw [← htable]
    exact ⟨hnot.2, hnot.1⟩
  have hfile : (t.install t.lowestFree g).file s.fds.lowestFree = some f := by
    rw [file_install_of_ne hnew.2.symm, ← htable, file_install_self]
  have hone : 1 ∈ t.openFds := htable ▸ mem_openFds_install.mpr (Or.inr (hstd 1 (by decide)))
  have hopen := openFds_of_redirected hl.dup2File hl.closeFile hl.innerPipe
    (s := { s with fds := t.install t.lowestFree g }) hfile
    (mem_openFds_install.mpr (Or.inr hone)) (by omega) h
  refine ⟨t.lowestFree, hnew.1, ?_⟩
  ext x
  rw [hopen, Set.mem_sdiff, Set.mem_singleton_iff, mem_openFds_install, Set.mem_insert_iff,
    ← htable, mem_openFds_install, htable]
  constructor
  · rintro ⟨rfl | rfl | hx, hne⟩
    · exact Or.inl rfl
    · exact absurd rfl hne
    · exact Or.inr hx
  · rintro (rfl | hx)
    · exact ⟨Or.inl rfl, hnew.2⟩
    · exact ⟨Or.inr (Or.inr hx), fun heq => hfree (heq ▸ hx)⟩

/-- One line: a redirection leaves one more descriptor open, every other command none. -/
theorem openFds_of_line {l : Typed Dir File} (hl : Granted l) (hstd : StdOpen s.fds)
    (h : executeCommand path l.calls l.innerCalls l.cmdLine s = .ready s' out) :
    s'.fds.openFds.ncard =
      s.fds.openFds.ncard + if '>' ∈ l.cmdLine.toList then 1 else 0 := by
  unfold executeCommand at h
  split at h
  · next hblank =>
    have harrow : '>' ∉ l.cmdLine.toList := fun hmem =>
      absurd (List.all_eq_true.mp hblank _ hmem) (by decide)
    rw [← (Ran.ready.inj h).1, if_neg harrow, Nat.add_zero]
  · obtain ⟨out', hrun⟩ := Ran.ready_of_after h
    unfold createAndExecute at hrun
    by_cases harrow : '>' ∈ l.cmdLine.toList
    · rw [if_pos (createCommand_of_arrow harrow)] at hrun
      rw [if_pos harrow]
      split at hrun
      · obtain ⟨og, hnew, hopen⟩ := openFds_of_redirect
          (s := s.setJobs (s.shell.jobs.removeFinishedJobs l.calls.reap)) hl hstd hrun
        rw [hopen, Set.ncard_insert_of_notMem hnew (finite_openFds _)]
        rfl
      · cases hrun
    · rw [if_neg (createCommand_of_plain harrow)] at hrun
      rw [openFds_of_runCommand hl.pipe hrun, if_neg harrow]
      rfl

end Leak

/-- The sessions in which every call on a descriptor succeeds. -/
def granting (path : Dir → String) : System (State Dir File) (Typed Dir File) :=
  (session path).restrict fun _ l => Granted l

theorem Granted.undoes {l : Typed Dir File} (h : Granted l) : Undoes l where
  redirect _ := ⟨h.closeFile, h.dup2Stdout⟩
  pipe := by
    unfold Typed.commandCalls callsOf
    split
    · exact h.innerPipe.1
    · exact h.pipe.1

/-- **What redirections leave open.** In a session in which every call on a descriptor succeeds,
the shell has one more descriptor open for every redirection that was typed, and no other line
changes their number. -/
theorem openFds_grow {path : Dir → String} {s t : State Dir File} {ls : List (Typed Dir File)}
    (hstd : StdOpen s.fds) (hrun : (granting path).Run s ls t) :
    t.fds.openFds.ncard =
      s.fds.openFds.ncard + ls.countP fun l => decide ('>' ∈ l.cmdLine.toList) := by
  suffices h : SameStd s.fds t.fds ∧ t.fds.openFds.ncard =
      s.fds.openFds.ncard + ls.countP fun l => decide ('>' ∈ l.cmdLine.toList) from h.2
  induction hrun with
  | nil => exact ⟨fun _ _ => rfl, rfl⟩
  | @snoc ls t u l _ hstep ih =>
    obtain ⟨hsame, hcount⟩ := ih
    obtain ⟨hl, -, printed, hline⟩ := hstep
    have hopen := hstd.of_sameStd hsame
    constructor
    · exact hsame.trans (sameStd_of_line hl.undoes hopen hline)
    · calc u.fds.openFds.ncard
          = t.fds.openFds.ncard + (if '>' ∈ l.cmdLine.toList then 1 else 0) :=
            openFds_of_line hl hopen hline
        _ = s.fds.openFds.ncard + (ls ++ [l]).countP fun l => decide ('>' ∈ l.cmdLine.toList) := by
            rw [hcount, List.countP_append, List.countP_singleton, Nat.add_assoc]
            simp only [decide_eq_true_eq]

theorem openFds_grow_sample : ∃ t,
    (granting rootOnly).Run sampleShell [⟨sampleCalls, sampleCalls, "pwd > out"⟩] t ∧
      t.fds.openFds.ncard = RedirectionCommand.terminal.openFds.ncard + 1 := by
  obtain ⟨t, hline⟩ := executeCommand_pwd_out
  have hgranted : Granted (⟨sampleCalls, sampleCalls, "pwd > out"⟩ : Typed Unit String) :=
    ⟨fun _ _ => rfl, rfl, rfl, rfl, rfl, ⟨⟨_, rfl⟩, rfl⟩, ⟨⟨_, rfl⟩, rfl⟩⟩
  have hrun : (granting rootOnly).Run sampleShell [⟨sampleCalls, sampleCalls, "pwd > out"⟩]
      { sampleShell with fds := t } :=
    .snoc .nil ⟨hgranted, fun _ _ _ _ _ _ => rfl, _, hline⟩
  have harrow : decide ('>' ∈ "pwd > out".toList) = true := by decide
  have hgrow := openFds_grow stdOpen_terminal hrun
  rw [List.countP_singleton, if_pos harrow] at hgrow
  exact ⟨_, hrun, hgrow⟩

/-! ### The descriptors alone -/

section Refines

variable {path : Dir → String} {b : Calls Dir File} {cmdLine : String} {s s' : State Dir File}
  {out : List (Printed File)} {ends : File × File}

theorem mem_whitespace_iff (c : Char) :
    c ∈ RedirectionCommand.whitespace ↔ Stoi.isspace c = true := by
  constructor
  · intro h
    have hall : RedirectionCommand.whitespace.all Stoi.isspace = true := by decide
    exact List.all_eq_true.mp hall c h
  · intro h
    rw [Stoi.isspace, Bool.or_eq_true, Bool.and_eq_true] at h
    obtain hspace | ⟨hge, hle⟩ := h
    · rw [of_decide_eq_true hspace]
      exact List.mem_cons_self
    · have hge := of_decide_eq_true hge
      have hle := of_decide_eq_true hle
      rw [← Char.ofNat_toNat c]
      generalize c.toNat = n at hge hle
      interval_cases n <;> decide

theorem all_whitespace (cs : List Char) :
    cs.all (· ∈ RedirectionCommand.whitespace) = cs.all Stoi.isspace := by
  refine congrArg cs.all (funext fun c => ?_)
  rw [Bool.eq_iff_iff, decide_eq_true_iff]
  exact mem_whitespace_iff c

theorem createCommand_ne_pipe (h : '|' ∉ cmdLine.toList) : createCommand cmdLine ≠ .pipe := by
  have htrim : '|' ∉ trim cmdLine.toList := fun hmem => h (mem_of_mem_trim hmem)
  unfold createCommand
  dsimp only
  rw [if_neg htrim]
  repeat' apply ite_class_ne
  all_goals exact nofun

theorem Does.fds_eq (h : Does path b cmdLine s s') :
    s'.fds = if createCommand cmdLine = .pipe then
      pipeTable b.pipe s.fds else s.fds := by
  cases h with
  | nothing hclass =>
    rw [if_neg]
    intro hpipe
    rw [hpipe] at hclass
    exact absurd hclass (by decide)
  | pipe hclass => rw [if_pos hclass]
  | prompt hclass | cd hclass | jobs hclass | fg hclass | background hclass | foreground hclass =>
    have hne : createCommand cmdLine ≠ .pipe := by
      rw [hclass]
      exact nofun
    exact (if_neg hne).symm

theorem executePlain_fds (a : Answers File) (hends : b.pipe.1 = .opened ends)
    (harrow : '>' ∉ cmdLine.toList) (h : executePlain path b cmdLine s = .ready s' out) :
    s'.fds =
      RedirectionCommand.executeInner { a with innerPipe := (ends, b.pipe.2) } cmdLine s.fds := by
  unfold executePlain at h
  unfold RedirectionCommand.executeInner
  rw [all_whitespace]
  split at h
  · next hblank => rw [if_pos hblank, ← (Ran.ready.inj h).1]
  · next hblank =>
    obtain ⟨out', hrun⟩ := Ran.ready_of_after h
    have hran := runCommand_ends path b cmdLine
      (s.setJobs (s.shell.jobs.removeFinishedJobs b.reap))
    rw [hrun] at hran
    have hdoes : Does path b cmdLine (s.setJobs (s.shell.jobs.removeFinishedJobs b.reap)) s' := by
      cases hran with
      | ready h => exact h.1
    rw [hdoes.fds_eq, if_neg hblank]
    -- without an arrow a line with a `|` is a pipe, and no other line is
    by_cases hpipe : '|' ∈ cmdLine.toList
    · rw [if_pos hpipe, if_pos (createCommand_of_pipe harrow hpipe), pipeTable_of_pipes hends]
      rfl
    · rw [if_neg hpipe, if_neg (createCommand_ne_pipe hpipe)]
      rfl

theorem redirected_fds {a : Answers File} {c : RedirectionCommand} {fdtFile ogStdoutFdt : ℕ}
    {f : File} (hends : b.pipe.1 = .opened ends) (hfile : s.fds.file fdtFile = some f)
    (h : redirected path a b fdtFile ogStdoutFdt c.cmdLine s = .ready s' out) :
    s'.fds = (RedirectionCommand.afterDup { a with innerPipe := (ends, b.pipe.2) } c fdtFile
      ogStdoutFdt s.fds).1 := by
  rw [redirected_eq hfile] at h
  unfold RedirectionCommand.afterDup
  dsimp only
  -- one case for each call that can fail
  rw [dup2_eq hfile]
  cases hdup2 : a.dup2File with
  | false =>
    rw [hdup2] at h
    exact congrArg State.fds (Ran.ready.inj h).1.symm
  | true =>
    rw [if_pos hdup2] at h
    by_cases hclose : a.closeFile = .closed
    · rw [if_pos hclose] at h
      rw [hclose]
      cases hrun : executePlain path b c.cmdLine
          { s with fds := (s.fds.install 1 f).release fdtFile } with
      | exited out' | undefined =>
        rw [hrun] at h
        cases h
      | ready s₁ out' =>
        have hinner := executePlain_fds a hends c.noArrow hrun
        rw [hrun] at h
        rw [← (Ran.ready.inj h).1, hinner]
        rfl
    · rw [if_neg hclose] at h
      rw [← (Ran.ready.inj h).1]
      cases hanswer : a.closeFile with
      | closed => exact absurd hanswer hclose
      | failedReleased | failedKept => rfl

/-- The copy of the standard output leaves the file that was opened before it. -/
theorem file_dup_install (t : FdTable File) (ok : Bool) (f : File) :
    ((t.install t.lowestFree f).dup ok 1).2.file t.lowestFree = some f := by
  rw [Extends.dup _ _ _ _ (mem_openFds_install.mpr (Or.inl rfl)), file_install_self]

/-- **A redirection, on the descriptors alone**: if the shell goes on after it, and the `pipe` of
its command has not failed, it has done to them what `RedirectionCommand.execute` does. -/
theorem redirect_fds {a : Answers File} {p : Parts} (hends : b.pipe.1 = .opened ends)
    (harrow : '>' ∉ (String.ofList p.first).toList)
    (h : redirect path a b p s = .ready s' out) :
    s'.fds = (RedirectionCommand.execute { a with innerPipe := (ends, b.pipe.2) }
      ⟨p.marked, String.ofList p.second, String.ofList p.first, harrow⟩ s.fds).1 := by
  unfold redirect at h
  unfold RedirectionCommand.execute RedirectionCommand.openFlags
  dsimp only at h ⊢
  cases hopen : a.openFile (String.ofList p.second)
      (if p.marked then [.creat, .rdwr, .append] else [.creat, .rdwr, .trunc]) with
  | none =>
    rw [hopen] at h
    rw [← (Ran.ready.inj h).1]
  | some f =>
    rw [hopen] at h
    dsimp only at h ⊢
    have hfile := file_dup_install s.fds a.dupStdout f
    cases hdup : (s.fds.install s.fds.lowestFree f).dup a.dupStdout 1 with
    | mk fd t =>
      rw [hdup] at h hfile
      cases fd with
      | none => rw [← (Ran.ready.inj h).1]
      | some og =>
        exact redirected_fds (c := ⟨p.marked, String.ofList p.second, _, harrow⟩) hends hfile h

end Refines

/-! ### The end of the shell -/

/-- The calls in front of the redirected command succeed. -/
def Redirects (a : Answers File) (p : Parts) (t : FdTable File) : Prop :=
  (opened a p).isSome = true ∧ a.dupStdout = true ∧ ¬ (t.file 0 = none ∧ t.file 1 = none) ∧
    a.dup2File = true ∧ a.closeFile = .closed

section Exits

variable {path : Dir → String} {a b : Calls Dir File} {cmdLine : String} {s : State Dir File}

theorem not_blank_of_quit (h : createCommand cmdLine = .quit) : ¬ Blank cmdLine.toList := by
  intro hblank
  have hcmd : trim cmdLine.toList = [] := by
    rw [trim, List.dropWhile_eq_nil_iff.mpr hblank]
    rfl
  unfold createCommand at h
  dsimp only at h
  rw [hcmd] at h
  exact absurd h (by decide)

theorem runCommand_exits_iff :
    (∃ out, runCommand path a cmdLine s = .exited out) ↔
      createCommand cmdLine = .quit ∧ (params cmdLine).length < commandMaxArgs := by
  constructor
  · rintro ⟨out, hrun⟩
    have hends := runCommand_ends path a cmdLine s
    rw [hrun] at hends
    refine ⟨?_, not_le.mp fun hlong => ?_⟩
    · cases hends with
      | exited h => exact h.1
    · unfold runCommand at hrun
      rw [mkCommand_of_long hlong] at hrun
      cases hrun
  · rintro ⟨hclass, hshort⟩
    obtain ⟨rest, hcmd⟩ := exists_mkCommand hshort
    obtain ⟨isBackground, hbackground⟩ := Option.ne_none_iff_exists'.mp
      (mt isBackgroundCommand_eq_none_iff.mp (not_blank_of_quit hclass))
    unfold runCommand
    rw [hcmd, hbackground]
    dsimp only
    rw [hclass]
    exact ⟨_, rfl⟩

theorem Ran.ready_not_exited (s : State Dir File) (printed : List (Printed File)) :
    ¬ ∃ out, Ran.ready s printed = .exited out := by
  rintro ⟨out, h⟩
  cases h

theorem Ran.undefined_not_exited : ¬ ∃ out, (Ran.undefined : Ran Dir File) = .exited out := by
  rintro ⟨out, h⟩
  cases h

theorem Ran.exists_exited_after (printed : List (Printed File)) (ran : Ran Dir File) :
    (∃ out, ran.after printed = .exited out) ↔ ∃ out, ran = .exited out := by
  cases ran with
  | ready s out =>
    exact iff_of_false (Ran.ready_not_exited s _) (Ran.ready_not_exited s out)
  | exited out => exact ⟨fun _ => ⟨out, rfl⟩, fun _ => ⟨_, rfl⟩⟩
  | undefined => exact iff_of_false Ran.undefined_not_exited Ran.undefined_not_exited

theorem executePlain_exits_iff :
    (∃ out, executePlain path a cmdLine s = .exited out) ↔
      createCommand cmdLine = .quit ∧ (params cmdLine).length < commandMaxArgs := by
  unfold executePlain
  split
  · next hblank =>
    refine iff_of_false (Ran.ready_not_exited s []) fun h => ?_
    exact absurd (List.all_eq_true.mp hblank) (not_blank_of_quit h.1)
  · rw [Ran.exists_exited_after]
    exact runCommand_exits_iff

theorem exists_restore_exited {ok : Bool} {ogStdoutFdt : ℕ} {ran : Ran Dir File} :
    (∃ out, restore ok ogStdoutFdt ran = .exited out) ↔ ∃ out, ran = .exited out := by
  cases ran with
  | ready s out =>
    exact iff_of_false (Ran.ready_not_exited _ _) (Ran.ready_not_exited s out)
  | exited out => exact Iff.rfl
  | undefined => exact Iff.rfl

theorem redirect_exits_iff {a : Answers File} {p : Parts} :
    (∃ out, redirect path a b p s = .exited out) ↔
      Redirects a p s.fds ∧ createCommand (String.ofList p.first) = .quit ∧
        (params (String.ofList p.first)).length < commandMaxArgs := by
  unfold redirect Redirects opened
  dsimp only
  cases a.openFile (String.ofList p.second)
      (if p.marked then [.creat, .rdwr, .append] else [.creat, .rdwr, .trunc]) with
  | none =>
    exact iff_of_false (Ran.ready_not_exited _ _) fun h => absurd h.1.1 Bool.false_ne_true
  | some f =>
    dsimp only
    have hfails : ((s.fds.install s.fds.lowestFree f).dup a.dupStdout 1).1 = none ↔
        a.dupStdout = false ∨ s.fds.file 0 = none ∧ s.fds.file 1 = none := dup_install_fails_iff
    have hfile := file_dup_install s.fds a.dupStdout f
    cases hdup : (s.fds.install s.fds.lowestFree f).dup a.dupStdout 1 with
    | mk fd t =>
      rw [hdup] at hfails hfile
      cases fd with
      | none =>
        refine iff_of_false (Ran.ready_not_exited _ _) fun h => ?_
        -- the two ways in which `dup` has no copy to give
        obtain hrefused | hclosed := hfails.mp rfl
        · exact absurd (hrefused.symm.trans h.1.2.1) Bool.false_ne_true
        · exact absurd hclosed h.1.2.2.1
      | some og =>
        obtain ⟨hdupped, hstd⟩ := not_or.mp (mt hfails.mpr (Option.some_ne_none og))
        dsimp only
        rw [redirected_eq hfile]
        by_cases hdup2 : a.dup2File = true
        · by_cases hclose : a.closeFile = .closed
          · rw [if_pos hdup2, if_pos hclose, exists_restore_exited, executePlain_exits_iff]
            -- all calls in front of the command have succeeded
            refine (and_iff_right ?_).symm
            exact ⟨rfl, Bool.eq_true_of_not_eq_false hdupped, hstd, hdup2, hclose⟩
          · rw [if_pos hdup2, if_neg hclose]
            exact iff_of_false (Ran.ready_not_exited _ _) fun h => absurd h.1.2.2.2.2 hclose
        · rw [if_neg hdup2]
          exact iff_of_false (Ran.ready_not_exited _ _) fun h => absurd h.1.2.2.2.1 hdup2

/-- **When the shell ends.** Of the lines whose execution is defined, which have fewer than twenty
words, a line ends the shell exactly if its command is `quit` and, when it has an arrow, the file
could be opened, descriptor `1` duplicated and moved to it, and the other descriptor of the file
closed. -/
theorem exits_iff (path : Dir → String) (a b : Calls Dir File) (cmdLine : String)
    (s : State Dir File) :
    (∃ out, executeCommand path a b cmdLine s = .exited out) ↔
      createCommand (executed cmdLine) = .quit ∧ (params cmdLine).length < commandMaxArgs ∧
        ('>' ∈ cmdLine.toList →
          ∃ p, mkRedirection cmdLine = some p ∧ Redirects a.redirect p s.fds) := by
  have hblank : Blank cmdLine.toList → createCommand (executed cmdLine) ≠ .quit := by
    intro hblank hquit
    have harrow : '>' ∉ cmdLine.toList := fun hmem => absurd (hblank _ hmem) (by decide)
    rw [executed, if_neg harrow] at hquit
    exact not_blank_of_quit hquit hblank
  unfold executeCommand
  split
  · next hall =>
    refine iff_of_false (Ran.ready_not_exited s []) fun h => ?_
    exact hblank (List.all_eq_true.mp hall) h.1
  · rw [Ran.exists_exited_after]
    unfold createAndExecute
    by_cases harrow : '>' ∈ cmdLine.toList
    · rw [if_pos (createCommand_of_arrow harrow)]
      by_cases hshort : (params cmdLine).length < commandMaxArgs
      · obtain ⟨rest, hcmd⟩ := exists_mkCommand hshort
        rw [hcmd]
        cases hp : mkRedirection cmdLine with
        | none =>
          refine iff_of_false Ran.undefined_not_exited fun h => ?_
          obtain ⟨p, hp', -⟩ := h.2.2 harrow
          cases hp'
        | some p =>
          have hexecuted := executed_of_mkRedirection harrow hp
          -- the command has no more words than its line
          have hlength := (length_params_executed_le cmdLine).trans_lt hshort
          dsimp only
          rw [redirect_exits_iff, hexecuted]
          constructor
          · exact fun h => ⟨h.2.1, hshort, fun _ => ⟨p, rfl, h.1⟩⟩
          · rintro ⟨hquit, -, hredirects⟩
            obtain ⟨p', hp', h⟩ := hredirects harrow
            obtain rfl := Option.some.inj hp'
            exact ⟨h, hquit, hlength⟩
      · rw [mkCommand_of_long (not_lt.mp hshort)]
        -- the constructor writes behind its slots
        exact iff_of_false Ran.undefined_not_exited fun h => hshort h.2.1
    · rw [if_neg (createCommand_of_plain harrow), runCommand_exits_iff, executed, if_neg harrow]
      exact ⟨fun h => ⟨h.1, h.2, fun hmem => absurd hmem harrow⟩, fun h => ⟨h.1, h.2.1⟩⟩

end Exits

end Smash
end Shell
end OsHomework
