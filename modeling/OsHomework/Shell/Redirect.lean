import OsHomework.Lib.FdTable

/-!
# Output redirection

`RedirectionCommand::execute` of `Commands.cpp` over the descriptor table of the
shell process. The table maps descriptor numbers to open files, `open` and `dup`
answer the lowest free number, and every call can be refused: the answers of the
system are a parameter (`Answers`), one for each call the code makes.

The command before the arrow is executed by the shell itself, so what it does to
the table is part of the model (`executeInner`): a pipe opens two descriptors and
closes them again, every other command leaves the table of the shell alone.

The duplicate of descriptor `1` that `dup` answers is never closed. So a
redirection leaves the table as it found it exactly when it gives up before it
has that duplicate and has got rid of the file's descriptor
(`execute_preserves_iff`).
-/

namespace OsHomework
namespace Shell

/-! ### The command -/

/-- The flags `open` is called with. -/
inductive OpenFlag
  | creat
  | rdwr
  | trunc
  | append
  deriving DecidableEq, Repr

/-- `RedirectionCommand`, as its constructor leaves it: `cmd_line` is what stands
before the first arrow. -/
structure RedirectionCommand where
  isAppend : Bool
  fileName : String
  cmdLine : String
  noArrow : '>' ∉ cmdLine.toList

/-- The answers of the system calls of one `RedirectionCommand::execute`. -/
structure Answers (File : Type) where
  /-- `open`: the new open file, `none` for `-1`. -/
  openFile : String → List OpenFlag → Option File
  dupStdout : Bool
  /-- `close(fdt_file)` after `dup` failed. -/
  closeAfterDup : CloseAnswer
  dup2File : Bool
  /-- `close(fdt_file)` after descriptor `1` was redirected. -/
  closeFile : CloseAnswer
  /-- The files `pipe` opens and the answers of the parent's two `close` calls, when the command
  before the arrow is a pipe. -/
  innerPipe : (File × File) × CloseAnswer × CloseAnswer
  dup2Stdout : Bool

namespace RedirectionCommand

variable {File : Type}

/-- The flags for `>` and for `>>`. -/
def openFlags (c : RedirectionCommand) : List OpenFlag :=
  if c.isAppend then [.creat, .rdwr, .append] else [.creat, .rdwr, .trunc]

/-- The characters `executeCommand` skips when it looks for a command. -/
def whitespace : List Char := [' ', '\n', '\r', '\t', '\x0c', '\x0b']

/-- The parent's part of `PipeCommand::execute`: both ends are opened, and closed
again before the last `waitpid`. -/
def pipeFds (ends : File × File) (close₀ close₁ : CloseAnswer) (t : FdTable File) :
    FdTable File :=
  let fd₀ := t.lowestFree
  let t := t.install fd₀ ends.1
  let fd₁ := t.lowestFree
  let t := t.install fd₁ ends.2
  ((t.close close₀ fd₀).2.close close₁ fd₁).2

/-- `SmallShell::executeCommand` on the command before the arrow. It holds no
`>`, so it is no redirection; a built-in command makes no call on a descriptor
and an external one makes its calls in the child. -/
def executeInner (a : Answers File) (cmdLine : String) (t : FdTable File) : FdTable File :=
  if cmdLine.toList.all (· ∈ whitespace) then t
  else if '|' ∈ cmdLine.toList then pipeFds a.innerPipe.1 a.innerPipe.2.1 a.innerPipe.2.2 t
  else t

/-- The part of `execute` that follows a successful `dup(1)`. -/
def afterDup (a : Answers File) (c : RedirectionCommand) (fdtFile ogStdoutFdt : ℕ)
    (t : FdTable File) : FdTable File × List String :=
  let (ok, t) := t.dup2 a.dup2File fdtFile 1
  if ok = false then (t, ["smash error: dup2 failed"])
  else
    let (closed, t) := t.close a.closeFile fdtFile
    if closed = false then (t, ["smash error: close failed"])
    else
      let t := executeInner a c.cmdLine t
      let (ok, t) := t.dup2 a.dup2Stdout ogStdoutFdt 1
      (t, if ok then [] else ["smash error: dup2 failed"])

/-- `RedirectionCommand::execute`: the table it leaves and what `perror` reported. -/
def execute (a : Answers File) (c : RedirectionCommand) (t : FdTable File) :
    FdTable File × List String :=
  match a.openFile c.fileName c.openFlags with
  | none => (t, ["smash error: open failed"])
  | some f =>
    let fdtFile := t.lowestFree
    let t := t.install fdtFile f
    match t.dup a.dupStdout 1 with
    | (none, t) =>
      let (closed, t) := t.close a.closeAfterDup fdtFile
      (t, "smash error: dup failed" :: if closed then [] else ["smash error: close failed"])
    | (some ogStdoutFdt, t) => afterDup a c fdtFile ogStdoutFdt t

/-! ### What stays open -/

variable {a : Answers File} {c : RedirectionCommand} {t : FdTable File}

open FdTable

/-- A pipe closes none of the descriptors that were open before it. -/
theorem openFds_subset_pipeFds (ends : File × File) (close₀ close₁ : CloseAnswer) :
    t.openFds ⊆ (pipeFds ends close₀ close₁ t).openFds := by
  intro x hx
  have hx₀ : x ∈ (t.install t.lowestFree ends.1).openFds := mem_openFds_install.mpr (Or.inr hx)
  refine mem_openFds_close _ (mem_openFds_close _ (mem_openFds_install.mpr (Or.inr hx₀)) ?_) ?_
  · rintro rfl
    exact t.lowestFree_notMem hx
  · rintro rfl
    exact (t.install t.lowestFree ends.1).lowestFree_notMem hx₀

theorem openFds_subset_executeInner (cmdLine : String) :
    t.openFds ⊆ (executeInner a cmdLine t).openFds := by
  unfold executeInner
  split
  · exact subset_rfl
  · split
    · exact openFds_subset_pipeFds _ _ _
    · exact subset_rfl

/-- After `dup`, no path closes a descriptor other than that of the file. -/
theorem mem_openFds_afterDup {fdtFile ogStdoutFdt x : ℕ} (hx : x ∈ t.openFds)
    (hne : x ≠ fdtFile) : x ∈ (afterDup a c fdtFile ogStdoutFdt t).1.openFds := by
  have h₁ := openFds_subset_dup2 a.dup2File fdtFile 1 hx
  unfold afterDup
  dsimp only
  split
  · exact h₁
  · have h₂ := mem_openFds_close a.closeFile h₁ hne
    split
    · exact h₂
    · exact openFds_subset_dup2 _ _ _ (openFds_subset_executeInner _ h₂)

/-! ### When the table is left as it was -/

/-- Descriptor `1` refers to the same open file and the same descriptors are open. -/
def Preserved (t t' : FdTable File) : Prop :=
  t'.file 1 = t.file 1 ∧ t'.openFds = t.openFds

/-- The redirection gives up before it holds a duplicate of descriptor `1`, and
without the descriptor of the file: `open` fails, or `dup` fails and `close`
releases the file. -/
def GivesUp (a : Answers File) (c : RedirectionCommand) (t : FdTable File) : Prop :=
  a.openFile c.fileName c.openFlags = none ∨
    (a.dupStdout = false ∨ t.file 0 = none ∧ t.file 1 = none) ∧ a.closeAfterDup ≠ .failedKept

theorem execute_of_open_failed (h : a.openFile c.fileName c.openFlags = none) :
    (execute a c t).1 = t := by
  simp only [execute, h]

theorem execute_of_dup_failed {f : File} (h : a.openFile c.fileName c.openFlags = some f)
    (hdup : ((t.install t.lowestFree f).dup a.dupStdout 1).1 = none) :
    (execute a c t).1 = ((t.install t.lowestFree f).close a.closeAfterDup t.lowestFree).2 := by
  have htable := dup_eq_none hdup
  simp only [execute, h]
  rw [show (t.install t.lowestFree f).dup a.dupStdout 1 = (none, t.install t.lowestFree f) from
    Prod.ext hdup htable]

theorem execute_of_dup {f : File} {ogStdoutFdt : ℕ}
    (h : a.openFile c.fileName c.openFlags = some f)
    (hdup : ((t.install t.lowestFree f).dup a.dupStdout 1).1 = some ogStdoutFdt) :
    execute a c t = afterDup a c t.lowestFree ogStdoutFdt
      ((t.install t.lowestFree f).dup a.dupStdout 1).2 := by
  simp only [execute, h]
  rw [show (t.install t.lowestFree f).dup a.dupStdout 1 =
    (some ogStdoutFdt, ((t.install t.lowestFree f).dup a.dupStdout 1).2) from Prod.ext hdup rfl]

/-- **The leak**: once `dup` has succeeded, its descriptor stays open on every path. -/
theorem exists_leak {f : File} {ogStdoutFdt : ℕ}
    (h : a.openFile c.fileName c.openFlags = some f)
    (hdup : ((t.install t.lowestFree f).dup a.dupStdout 1).1 = some ogStdoutFdt) :
    ogStdoutFdt ∈ (execute a c t).1.openFds ∧ ogStdoutFdt ∉ t.openFds := by
  obtain ⟨hfree, hopen⟩ := dup_eq_some hdup
  rw [mem_openFds_install, not_or] at hfree
  rw [execute_of_dup h hdup]
  exact ⟨mem_openFds_afterDup hopen hfree.1, hfree.2⟩

/-- A redirection leaves the table as it was exactly when it gives up. -/
theorem execute_preserves_iff : Preserved t (execute a c t).1 ↔ GivesUp a c t := by
  unfold GivesUp
  cases h : a.openFile c.fileName c.openFlags with
  | none =>
    rw [execute_of_open_failed h]
    exact ⟨fun _ => Or.inl rfl, fun _ => ⟨rfl, rfl⟩⟩
  | some f =>
    rw [← dup_install_fails_iff (f := f)]
    simp only [reduceCtorEq, false_or]
    cases hdup : ((t.install t.lowestFree f).dup a.dupStdout 1).1 with
    | none =>
      -- only `close` of the file is left, and it may fail
      rw [execute_of_dup_failed h hdup]
      have hfile := file_release_install (f := f) t.file_lowestFree
      cases hclose : a.closeAfterDup with
      | closed | failedReleased =>
        refine ⟨fun _ => by simp, fun _ => ⟨?_, ?_⟩⟩
        · exact congrFun hfile 1
        · exact Set.ext fun x => by
            rw [mem_openFds, mem_openFds]
            exact (congrArg (fun file => (file x).isSome = true) hfile).to_iff
      | failedKept =>
        -- the descriptor of the file is open now and was free before
        refine ⟨fun hp => ?_, fun hp => by simp at hp⟩
        have hmem : t.lowestFree ∈ t.openFds := hp.2 ▸ mem_openFds_install.mpr (Or.inl rfl)
        exact absurd hmem t.lowestFree_notMem
    | some ogStdoutFdt =>
      -- the copy of the standard output stays open
      obtain ⟨hopen, hfree⟩ := exists_leak h hdup
      refine ⟨fun hp => ?_, fun hp => by simp at hp⟩
      exact absurd (hp.2 ▸ hopen) hfree

/-! ### Sequences of redirections -/

/-- The table after the first `k` commands of a sequence. -/
def tableAfter (t : FdTable File) (cs : List (RedirectionCommand × Answers File)) (k : ℕ) :
    FdTable File :=
  (cs.take k).foldl (fun t c => (execute c.2 c.1 t).1) t

theorem tableAfter_succ {cs : List (RedirectionCommand × Answers File)} {k : ℕ}
    (hk : k < cs.length) :
    tableAfter t cs (k + 1) = (execute cs[k].2 cs[k].1 (tableAfter t cs k)).1 := by
  unfold tableAfter
  rw [List.take_succ_eq_append_getElem hk, List.foldl_append]
  rfl

/-- **Along a sequence of redirections, every command leaves the descriptors as it found them
exactly when every command gives up.** -/
theorem redirections_preserve_iff (t : FdTable File)
    (cs : List (RedirectionCommand × Answers File)) :
    (∀ k < cs.length, Preserved (tableAfter t cs k) (tableAfter t cs (k + 1))) ↔
      ∀ k, ∀ hk : k < cs.length, GivesUp cs[k].2 cs[k].1 (tableAfter t cs k) := by
  refine forall_congr' fun k => forall_congr' fun hk => ?_
  rw [tableAfter_succ hk]
  exact execute_preserves_iff

/-! ### A redirection that leaks -/

/-- Descriptors `0`, `1` and `2` refer to the terminal. -/
def terminal : FdTable String where
  file fd := if fd < 3 then some "terminal" else none
  limit := 3
  file_eq_none fd hfd := if_neg (by omega)

/-- Every call succeeds. -/
def allSucceed : Answers String where
  openFile name _ := some name
  dupStdout := true
  closeAfterDup := .closed
  dup2File := true
  closeFile := .closed
  innerPipe := (("pipe", "pipe"), .closed, .closed)
  dup2Stdout := true

/-- `pwd > out`. -/
def pwdToFile : RedirectionCommand where
  isAppend := false
  fileName := "out"
  cmdLine := "pwd"
  noArrow := by decide

/-- One successful redirection leaves one more descriptor open. -/
theorem not_preserved_of_success :
    ¬ Preserved (tableAfter terminal [(pwdToFile, allSucceed)] 0)
      (tableAfter terminal [(pwdToFile, allSucceed)] 1) := by
  rw [tableAfter_succ (by decide : 0 < [(pwdToFile, allSucceed)].length), execute_preserves_iff]
  change ¬ GivesUp allSucceed pwdToFile terminal
  simp [GivesUp, allSucceed, terminal]

end RedirectionCommand

end Shell
end OsHomework
