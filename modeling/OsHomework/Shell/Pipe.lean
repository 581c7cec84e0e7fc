import OsHomework.Lib.Transition
import Mathlib.Tactic

/-!
# Pipelines

`PipeCommand::execute` of `Commands.cpp` as a step relation over three processes
and the pipe between them. Every system call of the source is one step of the
process that makes it:

* the parent calls `pipe`, forks the first child, waits for it, forks the second
  child, closes both ends and waits for the second child;
* each child calls `setpgrp`, `dup2`, `close` and `close`, and then runs its
  command: the first one writes `N` bytes to the redirected stream, the second
  one reads its standard input until end of file, and both find the pipe there
  because of what `dup2` has done to their tables.

The pipe holds at most `C` bytes. A write blocks while the pipe is full and some
process holds the read end, and is answered by `SIGPIPE` when no process does; a
read blocks while the pipe is empty and some process holds the write end. Who
holds an end is read off the descriptor tables, which `fork` copies, `dup2` and
`close` edit and the end of a process clears.

The parent waits for the first child before it forks the second one, and it
holds the read end all that time. So a first command that writes more than the
pipe can take blocks with nobody to drain it (`exists_stuck`), and one that
writes at most `C` bytes never does (`progress`).
-/

namespace OsHomework
namespace Shell
namespace PipeCommand

/-! ### Descriptors -/

/-- The two ends of the pipe. -/
inductive PipeEnd
  | read
  | write
  deriving DecidableEq, Repr

/-- The descriptors the code names. A shell has `0`, `1` and `2` open, so the two
that `pipe` answers are others. -/
inductive Fd
  | stdin
  | stdout
  | stderr
  | fdArr0
  | fdArr1
  deriving DecidableEq, Repr

instance : Fintype Fd :=
  ⟨{.stdin, .stdout, .stderr, .fdArr0, .fdArr1}, fun fd => by cases fd <;> decide⟩

/-- A descriptor table, as far as it refers to the pipe. -/
abbrev Fds := Fd → Option PipeEnd

namespace Fds

/-- The table of a process without a descriptor of the pipe. -/
def empty : Fds := fun _ => none

/-- `pipe(fd_arr)`. -/
def pipe (t : Fds) : Fds :=
  Function.update (Function.update t .fdArr0 (some .read)) .fdArr1 (some .write)

/-- `dup2(oldfd, newfd)`. -/
def dup2 (oldfd newfd : Fd) (t : Fds) : Fds := Function.update t newfd (t oldfd)

/-- `close(fd)`. -/
def close (fd : Fd) (t : Fds) : Fds := Function.update t fd none

/-- Some descriptor of the table refers to the end `e`. -/
def Holds (t : Fds) (e : PipeEnd) : Prop := ∃ fd, t fd = some e

instance (t : Fds) (e : PipeEnd) : Decidable (t.Holds e) :=
  inferInstanceAs (Decidable (∃ fd, t fd = some e))

end Fds

/-! ### The three processes -/

/-- Where the parent is in `PipeCommand::execute`. -/
inductive ParentPc
  | pipe
  | forkFirst
  | waitFirst
  | forkSecond
  | closeRead
  | closeWrite
  | waitSecond
  | returned
  deriving DecidableEq, Repr

/-- Where a child is. `running` is the `execute` of its command, up to `exit(0)`. -/
inductive ChildPc
  | unborn
  | setpgrp
  | dup2
  | closeRead
  | closeWrite
  | running
  | terminated
  deriving DecidableEq, Repr

/-- The parent, both children and the pipe. -/
structure State where
  parent : ParentPc
  parentFds : Fds
  first : ChildPc
  firstFds : Fds
  second : ChildPc
  secondFds : Fds
  /-- The bytes the first command has yet to write. -/
  toWrite : ℕ
  /-- The bytes in the pipe. -/
  buffered : ℕ

namespace State

/-- Some process holds the end `e`. -/
def Held (s : State) (e : PipeEnd) : Prop :=
  s.parentFds.Holds e ∨ s.firstFds.Holds e ∨ s.secondFds.Holds e

/-- The shell as it enters `execute`, for a first command that writes `N` bytes. -/
def initial (N : ℕ) : State where
  parent := .pipe
  parentFds := Fds.empty
  first := .unborn
  firstFds := Fds.empty
  second := .unborn
  secondFds := Fds.empty
  toWrite := N
  buffered := 0

/-- Both commands are over. -/
def BothTerminated (s : State) : Prop := s.first = .terminated ∧ s.second = .terminated

/-- The first child sits in a `write` that the full pipe does not let return. -/
def FirstBlocked (C : ℕ) (s : State) : Prop :=
  s.first = .running ∧ 0 < s.toWrite ∧ C ≤ s.buffered ∧ s.Held .read

end State

/-- Who takes a step. -/
inductive Actor
  | parent
  | first
  | second
  deriving DecidableEq, Repr

/-- The stream of the first command that goes into the pipe. -/
def redirected (isPipeWithAmpersand : Bool) : Fd := if isPipeWithAmpersand then .stderr else .stdout

/-- One system call of one of the three processes. -/
inductive Step (isPipeWithAmpersand : Bool) (C : ℕ) : State → Actor → State → Prop
  | pipe {s} : s.parent = .pipe →
      Step _ C s .parent { s with parent := .forkFirst, parentFds := s.parentFds.pipe }
  | forkFirst {s} : s.parent = .forkFirst →
      Step _ C s .parent
        { s with parent := .waitFirst, first := .setpgrp, firstFds := s.parentFds }
  -- `waitpid(firstSonPid, &stat, WUNTRACED)` comes before the second `fork`
  | waitFirst {s} : s.parent = .waitFirst → s.first = .terminated →
      Step _ C s .parent { s with parent := .forkSecond }
  | forkSecond {s} : s.parent = .forkSecond →
      Step _ C s .parent
        { s with parent := .closeRead, second := .setpgrp, secondFds := s.parentFds }
  | closeRead {s} : s.parent = .closeRead →
      Step _ C s .parent
        { s with parent := .closeWrite, parentFds := s.parentFds.close .fdArr0 }
  | closeWrite {s} : s.parent = .closeWrite →
      Step _ C s .parent
        { s with parent := .waitSecond, parentFds := s.parentFds.close .fdArr1 }
  | waitSecond {s} : s.parent = .waitSecond → s.second = .terminated →
      Step _ C s .parent { s with parent := .returned }
  | firstSetpgrp {s} : s.first = .setpgrp →
      Step _ C s .first { s with first := .dup2 }
  | firstDup2 {s} : s.first = .dup2 →
      Step _ C s .first
        { s with first := .closeRead,
                 firstFds := s.firstFds.dup2 .fdArr1 (redirected isPipeWithAmpersand) }
  | firstCloseRead {s} : s.first = .closeRead →
      Step _ C s .first { s with first := .closeWrite, firstFds := s.firstFds.close .fdArr0 }
  | firstCloseWrite {s} : s.first = .closeWrite →
      Step _ C s .first { s with first := .running, firstFds := s.firstFds.close .fdArr1 }
  -- a blocking `write` to the redirected stream puts its bytes into the pipe as room appears
  | write {s n} : s.first = .running →
      s.firstFds (redirected isPipeWithAmpersand) = some .write →
      s.toWrite = n + 1 → s.buffered < C → s.Held .read →
      Step _ C s .first { s with toWrite := n, buffered := s.buffered + 1 }
  -- without a reader the writer is killed, whatever it has left
  | sigpipe {s} : s.first = .running →
      s.firstFds (redirected isPipeWithAmpersand) = some .write →
      0 < s.toWrite → ¬ s.Held .read →
      Step _ C s .first { s with first := .terminated, firstFds := Fds.empty }
  -- an exiting process closes all it holds
  | firstExit {s} : s.first = .running → s.toWrite = 0 →
      Step _ C s .first { s with first := .terminated, firstFds := Fds.empty }
  | secondSetpgrp {s} : s.second = .setpgrp →
      Step _ C s .second { s with second := .dup2 }
  | secondDup2 {s} : s.second = .dup2 →
      Step _ C s .second
        { s with second := .closeRead, secondFds := s.secondFds.dup2 .fdArr0 .stdin }
  | secondCloseRead {s} : s.second = .closeRead →
      Step _ C s .second { s with second := .closeWrite, secondFds := s.secondFds.close .fdArr0 }
  | secondCloseWrite {s} : s.second = .closeWrite →
      Step _ C s .second { s with second := .running, secondFds := s.secondFds.close .fdArr1 }
  | read {s n} : s.second = .running → s.secondFds .stdin = some .read → s.buffered = n + 1 →
      Step _ C s .second { s with buffered := n }
  -- end of file: the pipe is empty and no write end is left; the child exits upon this read
  | secondExit {s} : s.second = .running → s.secondFds .stdin = some .read → s.buffered = 0 →
      ¬ s.Held .write →
      Step _ C s .second { s with second := .terminated, secondFds := Fds.empty }

/-- The pipeline of a first command that writes `N` bytes, over a pipe of `C` bytes. -/
def system (isPipeWithAmpersand : Bool) (N C : ℕ) : System State Actor where
  init s := s = State.initial N
  step := Step isPipeWithAmpersand C

/-- No reachable state is stuck before both children have terminated, and whenever
the first child is blocked on the full pipe the others can go on to drain it. -/
def DeadlockFree (isPipeWithAmpersand : Bool) (N C : ℕ) : Prop :=
  ∀ s, (system isPipeWithAmpersand N C).Reachable s →
    (¬ s.BothTerminated → ∃ a t, (system isPipeWithAmpersand N C).step s a t) ∧
    (s.FirstBlocked C → ∃ as t, (system isPipeWithAmpersand N C).Run s as t ∧
      t.buffered < s.buffered)

/-! ### What holds in every reachable state -/

/-- The parent's table, by the call it is about to make. -/
def parentFdsAt : ParentPc → Fds
  | .pipe => Fds.empty
  | .forkFirst | .waitFirst | .forkSecond | .closeRead => Fds.empty.pipe
  | .closeWrite => Fds.empty.pipe.close .fdArr0
  | .waitSecond | .returned => (Fds.empty.pipe.close .fdArr0).close .fdArr1

/-- The table of a child that moves `oldfd` to `newfd`, by the call it is about to
make. -/
def childFdsAt (oldfd newfd : Fd) : ChildPc → Fds
  | .unborn | .terminated => Fds.empty
  | .setpgrp | .dup2 => Fds.empty.pipe
  | .closeRead => Fds.empty.pipe.dup2 oldfd newfd
  | .closeWrite => (Fds.empty.pipe.dup2 oldfd newfd).close .fdArr0
  | .running => ((Fds.empty.pipe.dup2 oldfd newfd).close .fdArr0).close .fdArr1

/-- How far the children can be when the parent is at a given call. -/
def InOrder (first second : ChildPc) : ParentPc → Prop
  | .pipe | .forkFirst => first = .unborn ∧ second = .unborn
  | .waitFirst => first ≠ .unborn ∧ second = .unborn
  | .forkSecond => first = .terminated ∧ second = .unborn
  | .closeRead | .closeWrite | .waitSecond => first = .terminated ∧ second ≠ .unborn
  | .returned => first = .terminated ∧ second = .terminated

/-- The invariant of a pipeline whose first command writes `N` bytes. -/
structure Inv (isPipeWithAmpersand : Bool) (N : ℕ) (s : State) : Prop where
  parentFds : s.parentFds = parentFdsAt s.parent
  firstFds : s.firstFds = childFdsAt .fdArr1 (redirected isPipeWithAmpersand) s.first
  secondFds : s.secondFds = childFdsAt .fdArr0 .stdin s.second
  inOrder : InOrder s.first s.second s.parent
  bytes : s.buffered + s.toWrite ≤ N

section Invariant

variable {isPipeWithAmpersand : Bool} {N C : ℕ} {s t : State} {a : Actor}

/-- A child that has been forked and is not over may go on wherever the parent is. -/
theorem InOrder.first {f f' g : ChildPc} {p : ParentPc} (h : InOrder f g p) (hborn : f ≠ .unborn)
    (hlive : f ≠ .terminated) (hborn' : f' ≠ .unborn) : InOrder f' g p := by
  cases p <;> simp_all [InOrder]

@[inherit_doc InOrder.first]
theorem InOrder.second {f g g' : ChildPc} {p : ParentPc} (h : InOrder f g p) (hborn : g ≠ .unborn)
    (hlive : g ≠ .terminated) (hborn' : g' ≠ .unborn) : InOrder f g' p := by
  cases p <;> simp_all [InOrder]

theorem Inv.initial (isPipeWithAmpersand : Bool) (N : ℕ) :
    Inv isPipeWithAmpersand N (State.initial N) where
  parentFds := rfl
  firstFds := rfl
  secondFds := rfl
  inOrder := ⟨rfl, rfl⟩
  bytes := (Nat.zero_add N).le

theorem Inv.step (h : Inv isPipeWithAmpersand N s) (hst : Step isPipeWithAmpersand C s a t) :
    Inv isPipeWithAmpersand N t := by
  obtain ⟨hpf, hff, hsf, hord, hbytes⟩ := h
  cases hst with
  | pipe hp | closeRead hp | closeWrite hp =>
    exact ⟨by simp [hpf, hp, parentFdsAt], hff, hsf, by simpa [hp, InOrder] using hord, hbytes⟩
  -- a child starts with the table of its parent
  | forkFirst hp =>
    refine ⟨by simp [hpf, hp, parentFdsAt], by simp [hpf, hp, parentFdsAt, childFdsAt], hsf, ?_,
      hbytes⟩
    exact ⟨by simp, by simp_all [InOrder]⟩
  | waitFirst hp hf =>
    exact ⟨by simp [hpf, hp, parentFdsAt], hff, hsf, ⟨hf, by simp_all [InOrder]⟩, hbytes⟩
  | forkSecond hp =>
    refine ⟨by simp [hpf, hp, parentFdsAt], hff, by simp [hpf, hp, parentFdsAt, childFdsAt], ?_,
      hbytes⟩
    exact ⟨by simp_all [InOrder], by simp⟩
  | waitSecond hp hs =>
    exact ⟨by simp [hpf, hp, parentFdsAt], hff, hsf, ⟨by simp_all [InOrder], hs⟩, hbytes⟩
  | firstSetpgrp hf | firstDup2 hf | firstCloseRead hf | firstCloseWrite hf =>
    exact ⟨hpf, by simp [hff, hf, childFdsAt], hsf,
      hord.first (by simp [hf]) (by simp [hf]) (by simp), hbytes⟩
  | sigpipe hf _ _ _ | firstExit hf _ =>
    exact ⟨hpf, rfl, hsf, hord.first (by simp [hf]) (by simp [hf]) (by simp), hbytes⟩
  -- a byte moves from the command into the pipe
  | write _ _ hn _ _ => exact ⟨hpf, hff, hsf, hord, by dsimp only; omega⟩
  | secondSetpgrp hs | secondDup2 hs | secondCloseRead hs | secondCloseWrite hs =>
    exact ⟨hpf, hff, by simp [hsf, hs, childFdsAt],
      hord.second (by simp [hs]) (by simp [hs]) (by simp), hbytes⟩
  -- and from the pipe to the reader
  | read _ _ hn => exact ⟨hpf, hff, hsf, hord, by dsimp only; omega⟩
  | secondExit hs _ _ _ =>
    exact ⟨hpf, hff, rfl, hord.second (by simp [hs]) (by simp [hs]) (by simp), hbytes⟩

theorem Inv.of_reachable (h : (system isPipeWithAmpersand N C).Reachable s) :
    Inv isPipeWithAmpersand N s :=
  h.invariant (fun s hs => by
    obtain rfl : s = State.initial N := hs
    exact Inv.initial _ N) fun _ _ _ hinv hst => hinv.step hst

/-- `dup2` has made the stream that the first command writes to the write end. -/
theorem Inv.writes_pipe (h : Inv isPipeWithAmpersand N s) (hf : s.first = .running) :
    s.firstFds (redirected isPipeWithAmpersand) = some .write := by
  rw [h.firstFds, hf]
  cases isPipeWithAmpersand <;> rfl

/-- `dup2` has made the standard input of the second command the read end. -/
theorem Inv.reads_pipe (h : Inv isPipeWithAmpersand N s) (hs : s.second = .running) :
    s.secondFds .stdin = some .read := by
  rw [h.secondFds, hs]
  rfl

/-! ### Progress when the output fits into the pipe -/

/-- Until it is over, a first child with room for its output has a next step. -/
theorem Inv.first_step (h : Inv isPipeWithAmpersand N s) (hNC : N ≤ C) (hborn : s.first ≠ .unborn)
    (hlive : s.first ≠ .terminated) : ∃ a t, Step isPipeWithAmpersand C s a t := by
  cases hf : s.first with
  | unborn => exact absurd hf hborn
  | setpgrp => exact ⟨_, _, .firstSetpgrp hf⟩
  | dup2 => exact ⟨_, _, .firstDup2 hf⟩
  | closeRead => exact ⟨_, _, .firstCloseRead hf⟩
  | closeWrite => exact ⟨_, _, .firstCloseWrite hf⟩
  | terminated => exact absurd hf hlive
  | running =>
    -- the bytes already in the pipe and those to come are at most `N`
    have hbytes := h.bytes
    have hpipe := h.writes_pipe hf
    rcases hn : s.toWrite with _ | n
    · exact ⟨_, _, .firstExit hf hn⟩
    · by_cases hr : s.Held .read
      · exact ⟨_, _, .write hf hpipe hn (by omega) hr⟩
      · exact ⟨_, _, .sigpipe hf hpipe (by omega) hr⟩

/-- Once the parent has closed its ends and the first child is over, the second
child is never kept waiting. -/
theorem Inv.second_step (h : Inv isPipeWithAmpersand N s) (hp : s.parent = .waitSecond)
    (hlive : s.second ≠ .terminated) : ∃ a t, Step isPipeWithAmpersand C s a t := by
  obtain ⟨hfirst, hborn⟩ : s.first = .terminated ∧ s.second ≠ .unborn := by
    simpa [hp, InOrder] using h.inOrder
  cases hs : s.second with
  | unborn => exact absurd hs hborn
  | setpgrp => exact ⟨_, _, .secondSetpgrp hs⟩
  | dup2 => exact ⟨_, _, .secondDup2 hs⟩
  | closeRead => exact ⟨_, _, .secondCloseRead hs⟩
  | closeWrite => exact ⟨_, _, .secondCloseWrite hs⟩
  | terminated => exact absurd hs hlive
  | running =>
    have hpipe := h.reads_pipe hs
    rcases hn : s.buffered with _ | n
    · -- no one holds the write end any more, so the empty pipe is at its end
      have hw : ¬ s.Held .write := by
        unfold State.Held
        rw [h.parentFds, h.firstFds, h.secondFds, hp, hfirst, hs]
        change ¬ ((parentFdsAt .waitSecond).Holds .write ∨ Fds.empty.Holds .write ∨
          (childFdsAt .fdArr0 .stdin .running).Holds .write)
        decide
      exact ⟨_, _, .secondExit hs hpipe hn hw⟩
    · exact ⟨_, _, .read hs hpipe hn⟩

/-- **Progress**: when the output of the first command fits into the pipe, a step is
possible until both children have terminated. -/
theorem Inv.progress (h : Inv isPipeWithAmpersand N s) (hNC : N ≤ C) (hlive : ¬ s.BothTerminated) :
    ∃ a t, Step isPipeWithAmpersand C s a t := by
  have hord := h.inOrder
  cases hp : s.parent with
  | pipe => exact ⟨_, _, .pipe hp⟩
  | forkFirst => exact ⟨_, _, .forkFirst hp⟩
  -- the parent waits, and the first child can move
  | waitFirst =>
    rw [hp] at hord
    by_cases hf : s.first = .terminated
    · exact ⟨_, _, .waitFirst hp hf⟩
    · exact h.first_step hNC hord.1 hf
  | forkSecond => exact ⟨_, _, .forkSecond hp⟩
  | closeRead => exact ⟨_, _, .closeRead hp⟩
  | closeWrite => exact ⟨_, _, .closeWrite hp⟩
  -- the parent waits, and the second child can move
  | waitSecond =>
    rw [hp] at hord
    exact h.second_step hp fun hs => hlive ⟨hord.1, hs⟩
  | returned =>
    rw [hp] at hord
    exact absurd hord hlive

/-- A first command whose output fits into the pipe never blocks on a full pipe. -/
theorem Inv.not_firstBlocked (h : Inv isPipeWithAmpersand N s) (hNC : N ≤ C) :
    ¬ s.FirstBlocked C := by
  rintro ⟨-, hpos, hfull, -⟩
  have hbytes := h.bytes
  omega

end Invariant

/-! ### The deadlock when it does not -/

section Deadlock

variable (isPipeWithAmpersand : Bool) (N C : ℕ)

/-- The first child has written `k` bytes while the parent waits for it. -/
def written (k : ℕ) : State where
  parent := .waitFirst
  parentFds := parentFdsAt .waitFirst
  first := .running
  firstFds := childFdsAt .fdArr1 (redirected isPipeWithAmpersand) .running
  second := .unborn
  secondFds := Fds.empty
  toWrite := N - k
  buffered := k

theorem written_held_read (k : ℕ) : (written isPipeWithAmpersand N k).Held .read :=
  Or.inl ⟨.fdArr0, rfl⟩

/-- The parent forks the first child, which redirects its output. -/
theorem reachable_written_zero :
    (system isPipeWithAmpersand N C).Reachable (written isPipeWithAmpersand N 0) := by
  have h := System.Reachable.of_init
    (show (system isPipeWithAmpersand N C).init (State.initial N) from rfl)
  have h := h.tail (Step.pipe rfl)
  have h := h.tail (Step.forkFirst rfl)
  have h := h.tail (Step.firstSetpgrp rfl)
  have h := h.tail (Step.firstDup2 rfl)
  have h := h.tail (Step.firstCloseRead rfl)
  exact h.tail (Step.firstCloseWrite rfl)

theorem reachable_written (k : ℕ) (hkN : k ≤ N) (hkC : k ≤ C) :
    (system isPipeWithAmpersand N C).Reachable (written isPipeWithAmpersand N k) := by
  induction k with
  | zero => exact reachable_written_zero isPipeWithAmpersand N C
  | succ k ih =>
    apply (ih (by omega) (by omega)).tail (l := .first)
    have hleft : (written isPipeWithAmpersand N k).toWrite = (N - (k + 1)) + 1 := by
      change N - k = N - (k + 1) + 1
      omega
    have hpipe : (written isPipeWithAmpersand N k).firstFds (redirected isPipeWithAmpersand)
        = some .write := by
      cases isPipeWithAmpersand <;> rfl
    exact Step.write rfl hpipe hleft (show k < C by omega)
      (written_held_read isPipeWithAmpersand N k)

/-- With the pipe full, more to write and the parent waiting, nobody can move. -/
theorem written_stuck (hCN : C < N) (a : Actor) (t : State) :
    ¬ Step isPipeWithAmpersand C (written isPipeWithAmpersand N C) a t := by
  intro hst
  -- the parent needs the first child to be over, the first child needs room or no reader, and
  -- the second child does not exist
  cases hst with
  | write _ _ _ hroom _ => exact absurd hroom (Nat.lt_irrefl C)
  | sigpipe _ _ _ hr => exact hr (written_held_read isPipeWithAmpersand N C)
  | firstExit _ h0 =>
    change N - C = 0 at h0
    omega
  | _ => simp_all [written]

/-- **The deadlock**: a first command that writes more than the pipe takes ends in a
reachable state with no step, in which neither child has terminated. -/
theorem exists_stuck (hCN : C < N) :
    ∃ s, (system isPipeWithAmpersand N C).Reachable s ∧ ¬ s.BothTerminated ∧
      s.FirstBlocked C ∧ ∀ a t, ¬ (system isPipeWithAmpersand N C).step s a t := by
  refine ⟨written isPipeWithAmpersand N C, reachable_written _ N C C hCN.le le_rfl, ?_,
    ⟨rfl, Nat.sub_pos_of_lt hCN, le_rfl, written_held_read _ N C⟩,
    written_stuck isPipeWithAmpersand N C hCN⟩
  rintro ⟨h, -⟩
  cases h

/-- **A pipeline is free of deadlock exactly when the output of its first command fits
into the pipe.** -/
theorem deadlockFree_iff : DeadlockFree isPipeWithAmpersand N C ↔ N ≤ C := by
  constructor
  · intro h
    by_contra hCN
    obtain ⟨s, hs, hlive, -, hstuck⟩ := exists_stuck isPipeWithAmpersand N C (by omega)
    obtain ⟨a, t, hst⟩ := (h s hs).1 hlive
    exact hstuck a t hst
  · intro hNC s hs
    have hinv := Inv.of_reachable hs
    exact ⟨hinv.progress hNC, fun hb => absurd hb (hinv.not_firstBlocked hNC)⟩

end Deadlock

/-- One byte more than a Linux pipe takes. -/
theorem not_deadlockFree_of_long_output : ¬ DeadlockFree false 65537 65536 := by
  intro h
  obtain ⟨s, hs, hlive, -, hstuck⟩ := exists_stuck false 65537 65536 (by decide)
  obtain ⟨a, t, hst⟩ := (h s hs).1 hlive
  exact hstuck a t hst

end PipeCommand
end Shell
end OsHomework
