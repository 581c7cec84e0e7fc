import OsHomework.Shell.Pipe

/-!
# What goes through a pipeline

The pipeline of `Pipe` counts bytes. Here the bytes are there: the first command has a text to
write, a byte that it writes goes to the end of the pipe, and the second command takes bytes from
its front. The processes do what they do in `Pipe`: every step of theirs is a step here
(`exists_byteStep`), and every step here is one of theirs (`reachable_processes`).

Whatever the order of the steps is, a second command that has terminated has read exactly the text
that the first command has written, in order (`pipe_delivers`): the parent keeps the read end open
as long as the first child runs, so that `SIGPIPE` never cuts the text off. And if the text fits
into the pipe, every run ends, after the same number of steps, in the return of the parent
(`pipe_completes`). A step is one system call, except that the read that finds the end of the pipe
and the exit that follows it are one step.
-/

namespace OsHomework
namespace Shell
namespace PipeCommand

/-- The bytes that are still to be written, those in the pipe, and those that were read. -/
structure Bytes where
  toWrite : List UInt8
  inPipe : List UInt8
  received : List UInt8
  deriving DecidableEq, Repr

/-- The processes, and the bytes that `State` counts. -/
structure Contents where
  processes : State
  bytes : Bytes

/-- A step of the processes, with what it does to the bytes. -/
inductive ByteStep (isPipeWithAmpersand : Bool) (C : ℕ) : Contents → Actor → Contents → Prop
  | write {s t b x rest} : Step isPipeWithAmpersand C s .first t → t.buffered = s.buffered + 1 →
      b.toWrite = x :: rest →
      ByteStep _ C ⟨s, b⟩ .first ⟨t, { b with toWrite := rest, inPipe := b.inPipe ++ [x] }⟩
  | read {s t b x rest} : Step isPipeWithAmpersand C s .second t → s.buffered = t.buffered + 1 →
      b.inPipe = x :: rest →
      ByteStep _ C ⟨s, b⟩ .second ⟨t, { b with inPipe := rest, received := b.received ++ [x] }⟩
  | other {s t b a} : Step isPipeWithAmpersand C s a t → t.buffered = s.buffered →
      ByteStep _ C ⟨s, b⟩ a ⟨t, b⟩

/-- The pipeline of a first command that writes `text`, over a pipe of `C` bytes. -/
def contents (isPipeWithAmpersand : Bool) (text : List UInt8) (C : ℕ) :
    System Contents Actor where
  init f := f = ⟨State.initial text.length, ⟨text, [], []⟩⟩
  step := ByteStep isPipeWithAmpersand C

section

variable {isPipeWithAmpersand : Bool} {text : List UInt8} {N C : ℕ} {s t : State} {a : Actor}
  {f g : Contents}

/-! ### The counts and the bytes -/

/-- What a step does to the two counts. -/
theorem Step.counts (h : Step isPipeWithAmpersand C s a t) :
    (a = .first ∧ s.toWrite = t.toWrite + 1 ∧ t.buffered = s.buffered + 1) ∨
      (a = .second ∧ t.toWrite = s.toWrite ∧ s.buffered = t.buffered + 1) ∨
      t.toWrite = s.toWrite ∧ t.buffered = s.buffered := by
  cases h with
  | write _ _ hn _ _ => exact Or.inl ⟨rfl, hn, rfl⟩
  | read _ _ hn => exact Or.inr (Or.inl ⟨rfl, rfl, hn⟩)
  | _ => exact Or.inr (Or.inr ⟨rfl, rfl⟩)

theorem ByteStep.processes (h : ByteStep isPipeWithAmpersand C f a g) :
    Step isPipeWithAmpersand C f.processes a g.processes := by
  cases h with
  | write hst _ _ => exact hst
  | read hst _ _ => exact hst
  | other hst _ => exact hst

/-- The counts are those of the bytes, and no byte is lost or out of order. -/
structure BytesInv (text : List UInt8) (f : Contents) : Prop where
  toWrite : f.processes.toWrite = f.bytes.toWrite.length
  buffered : f.processes.buffered = f.bytes.inPipe.length
  text : f.bytes.received ++ f.bytes.inPipe ++ f.bytes.toWrite = text

theorem BytesInv.step (h : BytesInv text f) (hst : ByteStep isPipeWithAmpersand C f a g) :
    BytesInv text g := by
  obtain ⟨htoWrite, hbuffered, htext⟩ := h
  cases hst with
  | @write s t b x rest hst hplus hhead =>
    -- the byte leaves the text of the first command and is the last one in the pipe
    have hcounts := hst.counts
    dsimp only at htoWrite hbuffered htext ⊢
    rw [hhead, List.length_cons] at htoWrite
    refine ⟨?_, ?_, ?_⟩
    · dsimp only
      omega
    · rw [List.length_append, ← hbuffered, hplus]
      rfl
    · rw [← htext, hhead]
      simp only [List.append_assoc, List.singleton_append]
  | @read s t b x rest hst hplus hhead =>
    -- the first byte of the pipe is the last one that was read
    have hcounts := hst.counts
    dsimp only at htoWrite hbuffered htext ⊢
    rw [hhead, List.length_cons] at hbuffered
    refine ⟨?_, ?_, ?_⟩
    · dsimp only
      omega
    · dsimp only
      omega
    · rw [← htext, hhead]
      simp only [List.append_assoc, List.singleton_append]
  | @other s t b a hst hsame =>
    -- neither count has changed
    have hcounts := hst.counts
    dsimp only at htoWrite hbuffered htext
    refine ⟨?_, hsame.trans hbuffered, htext⟩
    dsimp only
    omega

/-- Every step of the processes is possible with the bytes. -/
theorem exists_byteStep (h : BytesInv text f) (hst : Step isPipeWithAmpersand C f.processes a t) :
    ∃ b, ByteStep isPipeWithAmpersand C f a ⟨t, b⟩ := by
  obtain ⟨s, b⟩ := f
  have htoWrite := h.toWrite
  have hbuffered := h.buffered
  dsimp only at htoWrite hbuffered hst
  obtain ⟨rfl, hless, hplus⟩ | ⟨rfl, -, hplus⟩ | ⟨-, hsame⟩ := hst.counts
  · -- a count above zero has a byte behind it
    rw [hless] at htoWrite
    obtain ⟨x, rest, hhead⟩ := List.exists_cons_of_length_eq_add_one htoWrite.symm
    exact ⟨_, .write hst hplus hhead⟩
  · rw [hplus] at hbuffered
    obtain ⟨x, rest, hhead⟩ := List.exists_cons_of_length_eq_add_one hbuffered.symm
    exact ⟨_, .read hst hplus hhead⟩
  · exact ⟨b, .other hst hsame⟩

theorem BytesInv.initial (text : List UInt8) :
    BytesInv text ⟨State.initial text.length, ⟨text, [], []⟩⟩ := ⟨rfl, rfl, rfl⟩

theorem BytesInv.of_reachable (h : (contents isPipeWithAmpersand text C).Reachable f) :
    BytesInv text f := by
  have hstep : ∀ f a g, BytesInv text f → ByteStep isPipeWithAmpersand C f a g →
      BytesInv text g := fun _ _ _ hinv hst => hinv.step hst
  refine h.invariant ?_ hstep
  rintro f rfl
  exact .initial text

/-- A run with the bytes is one of the processes. -/
theorem run_processes {ls : List Actor} (h : (contents isPipeWithAmpersand text C).Run f ls g) :
    (system isPipeWithAmpersand N C).Run f.processes ls g.processes := by
  induction h with
  | nil => exact .nil
  | snoc _ hst ih => exact ih.snoc hst.processes

theorem reachable_processes (h : (contents isPipeWithAmpersand text C).Reachable f) :
    (system isPipeWithAmpersand text.length C).Reachable f.processes := by
  obtain ⟨f₀, ls, rfl, hrun⟩ := h
  exact ⟨_, ls, rfl, run_processes hrun⟩

/-! ### Nothing is cut off -/

/-- As long as the first child runs, the parent waits for it and holds the read end. -/
theorem Inv.held_read (h : Inv isPipeWithAmpersand N s) (hborn : s.first ≠ .unborn)
    (hlive : s.first ≠ .terminated) : s.Held .read := by
  have hord := h.inOrder
  -- the order of the calls leaves the parent in `waitpid`
  have hwait : s.parent = .waitFirst := by
    cases hp : s.parent with
    | waitFirst => rfl
    | pipe | forkFirst =>
      rw [hp] at hord
      exact absurd hord.1 hborn
    | forkSecond | closeRead | closeWrite | waitSecond | returned =>
      rw [hp] at hord
      exact absurd hord.1 hlive
  refine Or.inl ⟨.fdArr0, ?_⟩
  rw [h.parentFds, hwait]
  rfl

/-- The second child is forked when the first one is over. -/
theorem Inv.first_of_second (h : Inv isPipeWithAmpersand N s) (hborn : s.second ≠ .unborn) :
    s.first = .terminated := by
  have hord := h.inOrder
  cases hp : s.parent with
  | pipe | forkFirst | waitFirst | forkSecond =>
    rw [hp] at hord
    exact absurd hord.2 hborn
  | closeRead | closeWrite | waitSecond | returned =>
    rw [hp] at hord
    exact hord.1

/-- A child that is over has done all its work. -/
structure Done (s : State) : Prop where
  first : s.first = .terminated → s.toWrite = 0
  second : s.second = .terminated → s.buffered = 0

theorem Done.step (h : Done s) (hinv : Inv isPipeWithAmpersand N s)
    (hst : Step isPipeWithAmpersand C s a t) : Done t := by
  cases hst with
  | pipe | waitFirst | closeRead | closeWrite | waitSecond => exact ⟨h.first, h.second⟩
  | forkFirst | firstSetpgrp | firstDup2 | firstCloseRead | firstCloseWrite =>
    exact ⟨nofun, h.second⟩
  | forkSecond | secondSetpgrp | secondDup2 | secondCloseRead | secondCloseWrite =>
    exact ⟨h.first, nofun⟩
  | write hf _ _ _ _ =>
    refine ⟨fun hover => absurd (hover.symm.trans hf) nofun, fun hover => ?_⟩
    -- the second child cannot be over while the first one writes
    have hfirst := hinv.first_of_second (s := s) (by rw [hover]; exact nofun)
    exact absurd (hfirst.symm.trans hf) nofun
  -- `SIGPIPE` needs a pipe that nobody reads
  | sigpipe hf _ _ hr => exact absurd (hinv.held_read (by rw [hf]; exact nofun)
      (by rw [hf]; exact nofun)) hr
  | firstExit hf h0 => exact ⟨fun _ => h0, h.second⟩
  | read hs _ _ => exact ⟨h.first, fun hover => absurd (hover.symm.trans hs) nofun⟩
  | secondExit _ _ h0 _ => exact ⟨h.first, fun _ => h0⟩

theorem Done.of_reachable (h : (system isPipeWithAmpersand N C).Reachable s) : Done s := by
  have hinit : ∀ s, (system isPipeWithAmpersand N C).init s →
      Inv isPipeWithAmpersand N s ∧ Done s := by
    rintro s rfl
    exact ⟨.initial _ N, nofun, nofun⟩
  have hstep : ∀ s a t, Inv isPipeWithAmpersand N s ∧ Done s →
      Step isPipeWithAmpersand C s a t → Inv isPipeWithAmpersand N t ∧ Done t :=
    fun _ _ _ h hst => ⟨h.1.step hst, h.2.step h.1 hst⟩
  have hboth := h.invariant hinit hstep
  exact hboth.2

/-- A second command that has terminated has read the whole text. -/
theorem received_eq_text (h : (contents isPipeWithAmpersand text C).Reachable f)
    (hover : f.processes.second = .terminated) : f.bytes.received = text := by
  have hbytes := BytesInv.of_reachable h
  have hprocesses := reachable_processes h
  have hdone := Done.of_reachable hprocesses
  -- the first command is over, so that nothing is left to write or to read
  have hfirst := (Inv.of_reachable hprocesses).first_of_second (by rw [hover]; exact nofun)
  have hpipe : f.bytes.inPipe = [] :=
    List.length_eq_zero_iff.mp (hbytes.buffered.symm.trans (hdone.second hover))
  have hleft : f.bytes.toWrite = [] :=
    List.length_eq_zero_iff.mp (hbytes.toWrite.symm.trans (hdone.first hfirst))
  calc f.bytes.received
      = f.bytes.received ++ f.bytes.inPipe ++ f.bytes.toWrite := by
        rw [hpipe, hleft, List.append_nil, List.append_nil]
    _ = text := hbytes.text

/-- **What a pipeline delivers.** In every state of every interleaving, what the second command has
read is a prefix of the text of the first one, what is in the pipe is the next part of it, and the
first command is never killed by `SIGPIPE`. If the second command has terminated, it has read the
whole text. -/
theorem pipe_delivers (h : (contents isPipeWithAmpersand text C).Reachable f) :
    f.bytes.received ++ f.bytes.inPipe ++ f.bytes.toWrite = text ∧
      (f.processes.first = .running → f.processes.Held .read) ∧
      (f.processes.second = .terminated → f.bytes.received = text) := by
  have hinv := Inv.of_reachable (reachable_processes h)
  refine ⟨(BytesInv.of_reachable h).text, fun hrunning => ?_, received_eq_text h⟩
  exact hinv.held_read (by rw [hrunning]; exact nofun) (by rw [hrunning]; exact nofun)

/-! ### Every run ends -/

/-- The steps that the parent has yet to take. -/
def ParentPc.left : ParentPc → ℕ
  | .pipe => 7
  | .forkFirst => 6
  | .waitFirst => 5
  | .forkSecond => 4
  | .closeRead => 3
  | .closeWrite => 2
  | .waitSecond => 1
  | .returned => 0

/-- The steps that a child has yet to take, apart from those that move bytes. -/
def ChildPc.left : ChildPc → ℕ
  | .unborn | .setpgrp => 5
  | .dup2 => 4
  | .closeRead => 3
  | .closeWrite => 2
  | .running => 1
  | .terminated => 0

/-- All of them. A byte that is not written yet is written and read. -/
def State.left (s : State) : ℕ :=
  s.parent.left + s.first.left + s.second.left + 2 * s.toWrite + s.buffered

/-- A step is one of those that are left. -/
theorem Inv.left_step (h : Inv isPipeWithAmpersand N s) (hst : Step isPipeWithAmpersand C s a t) :
    s.left = t.left + 1 := by
  have hord := h.inOrder
  unfold State.left
  cases hst with
  | pipe hp | waitFirst hp _ | closeRead hp | closeWrite hp | waitSecond hp _ =>
    rw [hp]
    simp only [ParentPc.left]
    omega
  | forkFirst hp | forkSecond hp =>
    rw [hp] at hord ⊢
    simp only [hord.1, hord.2, ParentPc.left, ChildPc.left]
    omega
  | firstSetpgrp hc | firstDup2 hc | firstCloseRead hc | firstCloseWrite hc
    | sigpipe hc _ _ _ | firstExit hc _ | secondSetpgrp hc | secondDup2 hc | secondCloseRead hc
    | secondCloseWrite hc | secondExit hc _ _ _ =>
    rw [hc]
    simp only [ChildPc.left]
    omega
  | write _ _ hn _ _ | read _ _ hn =>
    rw [hn]
    dsimp only
    omega

theorem left_run {ls : List Actor} (h : Inv isPipeWithAmpersand N s)
    (hrun : (system isPipeWithAmpersand N C).Run s ls t) : s.left = t.left + ls.length := by
  suffices hboth : Inv isPipeWithAmpersand N t ∧ s.left = t.left + ls.length from hboth.2
  induction hrun with
  | nil => exact ⟨h, rfl⟩
  | snoc _ hst ih =>
    refine ⟨ih.1.step hst, ?_⟩
    rw [ih.2, ih.1.left_step hst, List.length_append, List.length_singleton]
    omega

/-- With room for the text there is a next step until the parent has returned. -/
theorem Inv.next_step (h : Inv isPipeWithAmpersand N s) (hNC : N ≤ C)
    (hlive : s.parent ≠ .returned) : ∃ a t, Step isPipeWithAmpersand C s a t := by
  by_cases hover : s.BothTerminated
  · have hord := h.inOrder
    cases hp : s.parent with
    | pipe | forkFirst | waitFirst | forkSecond =>
      rw [hp, hover.2] at hord
      exact absurd hord.2 nofun
    | closeRead => exact ⟨_, _, .closeRead hp⟩
    | closeWrite => exact ⟨_, _, .closeWrite hp⟩
    | waitSecond => exact ⟨_, _, .waitSecond hp hover.2⟩
    | returned => exact absurd hp hlive
  · exact h.progress hNC hover

/-- Nothing is left exactly when the parent has returned. -/
theorem left_eq_zero_iff (h : (system isPipeWithAmpersand N C).Reachable s) :
    s.left = 0 ↔ s.parent = .returned := by
  have hinv := Inv.of_reachable h
  have hdone := Done.of_reachable h
  constructor
  · intro hzero
    -- the steps of the parent are a part of all of them
    have hparent : s.parent.left = 0 := by
      unfold State.left at hzero
      omega
    cases hp : s.parent with
    | returned => rfl
    | pipe | forkFirst | waitFirst | forkSecond | closeRead | closeWrite | waitSecond =>
      rw [hp] at hparent
      exact absurd hparent nofun
  · intro hp
    -- when the parent has returned both children are over
    have hord := hinv.inOrder
    rw [hp] at hord
    unfold State.left
    rw [hp, hord.1, hord.2, hdone.first hord.1, hdone.second hord.2]
    rfl

/-- Every state can be continued to the return of the parent. -/
theorem exists_returned (hfits : text.length ≤ C)
    (h : (contents isPipeWithAmpersand text C).Reachable f) :
    ∃ g, (contents isPipeWithAmpersand text C).Reachable g ∧ g.processes.parent = .returned := by
  induction hn : f.processes.left generalizing f with
  | zero => exact ⟨f, h, (left_eq_zero_iff (reachable_processes h)).mp hn⟩
  | succ n ih =>
    have hinv := Inv.of_reachable (reachable_processes h)
    -- a step that is left is a step that some process can take
    have hlive : f.processes.parent ≠ .returned := fun hp => by
      have hzero := (left_eq_zero_iff (reachable_processes h)).mpr hp
      omega
    obtain ⟨a, t, hst⟩ := hinv.next_step hfits hlive
    obtain ⟨b, hbyte⟩ := exists_byteStep (BytesInv.of_reachable h) hst
    have hleft := hinv.left_step hst
    exact ih (h.tail hbyte) (by dsimp only; omega)

/-- **Every run of a pipeline ends.** If the text fits into the pipe then, in whatever order the
processes are scheduled, a run can go on exactly as long as it has taken fewer than `17 + 2n` steps
for a text of `n` bytes, and after that many the parent has returned and the second command has read
the text. -/
theorem pipe_completes (hfits : text.length ≤ C) {ls : List Actor}
    (hrun : (contents isPipeWithAmpersand text C).Run
      ⟨State.initial text.length, ⟨text, [], []⟩⟩ ls f) :
    ((∃ a g, (contents isPipeWithAmpersand text C).step f a g) ↔
        ls.length < 17 + 2 * text.length) ∧
      (ls.length = 17 + 2 * text.length →
        f.processes.parent = .returned ∧ f.bytes.received = text) := by
  have hreach : (contents isPipeWithAmpersand text C).Reachable f := ⟨_, ls, rfl, hrun⟩
  have hprocesses := reachable_processes hreach
  have hinv := Inv.of_reachable hprocesses
  have hlength : 17 + 2 * text.length = f.processes.left + ls.length :=
    left_run (.initial isPipeWithAmpersand text.length) (run_processes hrun)
  have hend := left_eq_zero_iff hprocesses
  refine ⟨⟨?_, fun hless => ?_⟩, fun heq => ?_⟩
  · -- a step takes one of those that are left
    rintro ⟨a, g, hst⟩
    have h := hinv.left_step hst.processes
    omega
  · have hlive : f.processes.parent ≠ .returned := fun hp => by
      have h := hend.mpr hp
      omega
    obtain ⟨a, t, hst⟩ := hinv.next_step hfits hlive
    obtain ⟨b, hbyte⟩ := exists_byteStep (BytesInv.of_reachable hreach) hst
    exact ⟨a, _, hbyte⟩
  · -- all steps have been taken
    have hp := hend.mp (by omega)
    have hord := hinv.inOrder
    rw [hp] at hord
    exact ⟨hp, received_eq_text hreach hord.2⟩

end

theorem reachable_start : (contents false [104, 105] 2).Reachable
    ⟨State.initial 2, ⟨[104, 105], [], []⟩⟩ := .of_init rfl

/-- Two bytes, over a pipe that takes two. -/
theorem pipe_delivers_sample : ∃ f, (contents false [104, 105] 2).Reachable f ∧
    f.processes.second = .terminated ∧ f.bytes.received = [104, 105] := by
  obtain ⟨f, hf, hp⟩ := exists_returned (by decide) reachable_start
  have hord := (Inv.of_reachable (reachable_processes hf)).inOrder
  rw [hp] at hord
  exact ⟨f, hf, hord.2, (pipe_delivers hf).2.2 hord.2⟩

theorem pipe_completes_sample : ∃ ls f,
    (contents false [104, 105] 2).Run ⟨State.initial 2, ⟨[104, 105], [], []⟩⟩ ls f ∧
      ls.length = 21 ∧ f.processes.parent = .returned ∧ f.bytes.received = [104, 105] := by
  have hfits : ([104, 105] : List UInt8).length ≤ 2 := by decide
  obtain ⟨f, ⟨f₀, ls, rfl, hrun⟩, hp⟩ := exists_returned hfits reachable_start
  -- with nothing left the run is as long as the theorem says
  have hleft := left_run (.initial false 2) (run_processes hrun)
  have hzero := (left_eq_zero_iff (reachable_processes ⟨_, ls, rfl, hrun⟩)).mpr hp
  have hlength : ls.length = 21 := by
    rw [hzero, Nat.zero_add] at hleft
    exact hleft.symm
  exact ⟨ls, f, hrun, hlength, (pipe_completes hfits hrun).2 hlength⟩

end PipeCommand
end Shell
end OsHomework
