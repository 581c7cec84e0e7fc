import OsHomework.Shell.Nesting

/-!
# The storage of a command

A command has `COMMAND_MAX_ARGS` slots for its parameters and the `NULL` behind
them, and a complex external command is copied into `COMMAND_ARGS_MAX_LENGTH + 1`
bytes. Nothing limits the line that is read.

The destructor looks at the slots from `COMMAND_MAX_ARGS` down, which is one slot
too many, and whether they were set or not. `executeCommand` has its `delete`
commented out; what is destroyed are the commands that the children of a pipe
make, when they have executed them, and every `quit`, which deletes itself before
it exits. So the storage is respected exactly if a line has fewer than
`COMMAND_MAX_ARGS` words, executes neither a pipe nor `quit`, and has no more bytes
than fit if it is complex (`storageInBounds_iff`).
-/

namespace OsHomework
namespace Shell

open Stoi

/-- `COMMAND_ARGS_MAX_LENGTH`. -/
def commandArgsMaxLength : ℕ := 200

/-- The command needs a shell of its own, as `CreateCommand` finds. -/
def isComplex (cmdLine : String) : Bool :=
  decide ('?' ∈ trim cmdLine.toList) || decide ('*' ∈ trim cmdLine.toList)

/-- The slots that `_parseCommandLine` writes for `n` words, from `args[i]` on. -/
def parseWrites : ℕ → ℕ → List ℕ
  | 0, _ => []
  | n + 1, i => i :: (i + 1) :: parseWrites n (i + 1)

/-- The slots that `Command::~Command` reads. -/
def destructorReads : List ℕ := (List.range (commandMaxArgs + 1)).reverse

/-- The commands that are destroyed after `typed` was typed. -/
inductive Destroyed (typed : String) : String → Prop
  | quit {line : String} : Creates typed line → createCommand line = .quit → Destroyed typed line
  | side {line part : String} {parts : List String} :
      Creates typed line → createCommand line = .pipe → subcommands line = some parts →
        part ∈ parts → Destroyed typed part

/-- One command respects its storage. -/
structure InBounds (typed line : String) : Prop where
  splits : (subcommands line).isSome = true
  writes : ∀ i ∈ parseWrites (params line).length 0, i < commandMaxArgs
  reads : Destroyed typed line → ∀ i ∈ destructorReads,
    i < commandMaxArgs ∧ i ∈ parseWrites (params line).length 0
  /-- `strcpy(argv[2], cmd_line.c_str())`, which copies the bytes of the line and the terminating
  zero. -/
  copy : createCommand line = .external → isComplex line = true →
    byteLength line.toList + 1 ≤ commandArgsMaxLength + 1

/-- All the commands made after `typed` was typed do. -/
def StorageInBounds (typed : String) : Prop := ∀ line, Creates typed line → InBounds typed line

/-! ### The slots -/

theorem parseWrites_lt_iff {m : ℕ} (n i : ℕ) :
    (∀ j ∈ parseWrites n i, j < m) ↔ n = 0 ∨ i + n < m := by
  induction n generalizing i with
  | zero => simp [parseWrites]
  | succ n ih =>
    simp only [parseWrites, List.forall_mem_cons, ih]
    omega

/-- The loop has a result exactly if it writes to slots that exist. -/
theorem parseCommandLine_isSome_iff (ws : List String) (i : ℕ) (args : List Slot) :
    (parseCommandLine ws i args).isSome = true ↔
      ∀ j ∈ parseWrites ws.length i, j < args.length := by
  induction ws generalizing i args with
  | nil => simp [parseCommandLine, parseWrites]
  | cons w ws ih =>
    rw [parseCommandLine, List.length_cons]
    simp only [parseWrites, List.forall_mem_cons]
    by_cases hi : i + 1 < args.length
    · rw [if_pos hi, ih, List.length_set, List.length_set]
      exact ⟨fun h => ⟨by omega, hi, h⟩, fun h => h.2.2⟩
    · rw [if_neg hi]
      exact iff_of_false Bool.noConfusion fun h => hi h.2.1

/-- The destructor reads a slot that does not exist. -/
theorem not_reads (n : ℕ) :
    ¬ ∀ i ∈ destructorReads, i < commandMaxArgs ∧ i ∈ parseWrites n 0 := by
  intro h
  exact absurd (h commandMaxArgs (by decide)).1 (lt_irrefl _)

/-! ### The commands of a line -/

section

variable {typed line : String}

/-- The command before the arrow has no more words than the line. -/
theorem length_params_executed_le (typed : String) :
    (params (executed typed)).length ≤ (params typed).length := by
  unfold executed
  split
  · obtain ⟨a, b, hpre, ha, -⟩ := exists_strip Stoi.isspace (beforeArrow typed)
    have htyped : typed.toList =
        a ++ (trim (beforeArrow typed) ++ (b ++ typed.toList.dropWhile (· ≠ '>'))) := by
      calc typed.toList = beforeArrow typed ++ typed.toList.dropWhile (· ≠ '>') :=
          List.takeWhile_append_dropWhile.symm
        _ = (a ++ trim (beforeArrow typed) ++ b) ++ typed.toList.dropWhile (· ≠ '>') := by
          conv_lhs => rw [hpre]
          rfl
        _ = a ++ (trim (beforeArrow typed) ++ (b ++ typed.toList.dropWhile (· ≠ '>'))) := by
          simp only [List.append_assoc]
    have hblank : ∀ c ∈ a.filter (· ≠ '&'), Stoi.isspace c = true := fun c hc =>
      ha c (List.mem_of_mem_filter hc)
    rw [params_eq, params_eq, List.length_map, List.length_map, htyped, String.toList_ofList,
      List.filter_append, tokens_of_seps_append hblank, List.filter_append]
    exact length_tokens_le_append _ _
  · exact Nat.le_refl _

/-- A line that executes neither a pipe nor `quit`: the text of its one command. -/
structure Plain (typed : String) : Prop where
  pipe : '|' ∉ beforeArrow typed
  quit : createCommand (executed typed) ≠ .quit
  copy : createCommand (executed typed) = .external → isComplex (executed typed) = true →
    byteLength (executed typed).toList ≤ commandArgsMaxLength

theorem pipe_mem_executed_iff : '|' ∈ (executed typed).toList ↔ '|' ∈ beforeArrow typed := by
  rw [← pipe_mem_core_iff, core_executed, pipe_mem_core_iff]

/-- Such a line makes no commands but the typed one and the one that is executed. -/
theorem Creates.eq_executed (h : Creates typed line)
    (hplain : Blank (beforeArrow typed) ∨ Plain typed) :
    (line = typed ∧ '>' ∈ typed.toList) ∨
      ('>' ∉ line.toList ∧ line = executed typed ∧ Plain typed) := by
  refine h.induct_executed (Q := fun l => l = executed typed ∧ Plain typed)
    (fun hne => ⟨rfl, hplain.resolve_left hne⟩) ?_
  rintro l p ⟨rfl, hp⟩ ⟨a, b, hs, -⟩
  refine absurd (pipe_mem_executed_iff.mp ?_) hp.pipe
  rw [hs]
  refine List.mem_append_left _ (List.mem_append_right _ ?_)
  unfold operator
  split <;> exact List.mem_cons_self

/-- … and destroys none of them. -/
theorem Plain.not_destroyed (hplain : Blank (beforeArrow typed) ∨ Plain typed) :
    ¬ Destroyed typed line := by
  intro h
  cases h with
  | quit hcreates hclass =>
    rcases hcreates.eq_executed hplain with ⟨rfl, harrow⟩ | ⟨-, rfl, hp⟩
    · rw [createCommand_of_arrow harrow] at hclass
      cases hclass
    · exact hp.quit hclass
  | side hcreates hclass hparts hmem =>
    rcases hcreates.eq_executed hplain with ⟨rfl, harrow⟩ | ⟨harrow, rfl, hp⟩
    · rw [createCommand_of_arrow harrow] at hclass
      cases hclass
    · have hpipe := mt pipe_mem_executed_iff.mp hp.pipe
      rw [subcommands_of_plain harrow hpipe] at hparts
      cases hparts
      cases hmem

/-- If the storage is respected, no pipe is executed and no `quit`. -/
theorem StorageInBounds.plain (h : StorageInBounds typed) (hfits : OperatorFits typed)
    (hne : ¬ Blank (beforeArrow typed)) : Plain typed := by
  have hcreates := creates_executed hfits hne
  have hbounds := h _ hcreates
  refine ⟨fun hpipe => ?_, fun hquit => ?_, fun hclass hcomplex => ?_⟩
  · -- the first side of the pipe is destroyed
    have hmem := pipe_mem_executed_iff.mpr hpipe
    have harrow := arrow_notMem_executed typed
    obtain ⟨parts, hparts⟩ := Option.isSome_iff_exists.mp hbounds.splits
    rcases subcommands_cases hparts with ⟨h', -⟩ | ⟨-, -, p, -, rfl⟩ | ⟨-, h', -⟩
    · exact absurd h' harrow
    · have hside := hcreates.part hparts List.mem_cons_self
      have hclass := createCommand_of_pipe harrow hmem
      exact not_reads _ ((h _ hside).reads (.side hcreates hclass hparts List.mem_cons_self))
    · exact absurd hmem h'
  · exact not_reads _ (hbounds.reads (.quit hcreates hquit))
  · exact Nat.le_of_succ_le_succ (hbounds.copy hclass hcomplex)

end

/-- **The storage of commands.** It is respected exactly for a blank line, and for a line of fewer
than `COMMAND_MAX_ARGS` words that has nothing before its arrow or executes one command there,
neither a pipe nor `quit` nor a complex one that has too many bytes. -/
theorem storageInBounds_iff (typed : String) :
    StorageInBounds typed ↔
      Blank typed.toList ∨
        ((params typed).length < commandMaxArgs ∧ OperatorFits typed ∧
          (Blank (beforeArrow typed) ∨ Plain typed)) := by
  constructor
  · intro h
    by_cases hblank : Blank typed.toList
    · exact Or.inl hblank
    · have hbounds := h typed (.typed hblank)
      have hfits := subcommands_isSome_iff.mp hbounds.splits
      have hwords := (parseWrites_lt_iff _ _).mp hbounds.writes
      refine Or.inr ⟨?_, hfits, ?_⟩
      · rcases hwords with hzero | hlt
        · rw [hzero]
          decide
        · rwa [Nat.zero_add] at hlt
      · by_cases hne : Blank (beforeArrow typed)
        · exact Or.inl hne
        · exact Or.inr (h.plain hfits hne)
  · rintro (hblank | ⟨hwords, hfits, hplain⟩) line hline
    · -- no command is made for a blank line
      exfalso
      induction hline with
      | typed hne => exact hne hblank
      | part _ _ _ ih => exact ih
    · -- the typed line with its arrow, or the command that is executed
      rcases hline.eq_executed hplain with ⟨rfl, harrow⟩ | ⟨harrow, rfl, hp⟩
      · refine ⟨subcommands_isSome_iff.mpr hfits, ?_, ?_, ?_⟩
        · exact (parseWrites_lt_iff _ _).mpr (Or.inr (by rwa [Nat.zero_add]))
        · exact fun hd => absurd hd (Plain.not_destroyed hplain)
        · intro hclass
          rw [createCommand_of_arrow harrow] at hclass
          cases hclass
      · have hpipe := mt pipe_mem_executed_iff.mp hp.pipe
        have hlen := (length_params_executed_le typed).trans_lt hwords
        refine ⟨?_, ?_, ?_, ?_⟩
        · rw [subcommands_of_plain harrow hpipe]
          rfl
        · exact (parseWrites_lt_iff _ _).mpr (Or.inr (by rwa [Nat.zero_add]))
        · exact fun hd => absurd hd (Plain.not_destroyed hplain)
        · exact fun hclass hcomplex => Nat.succ_le_succ (hp.copy hclass hcomplex)

/-- Twenty words: the `NULL` goes behind the last slot. -/
theorem twenty_words_overflow :
    20 ∈ parseWrites (params "a a a a a a a a a a a a a a a a a a a a").length 0 ∧
      ¬ StorageInBounds "a a a a a a a a a a a a a a a a a a a a" := by
  have hmem : 20 ∈ parseWrites (params "a a a a a a a a a a a a a a a a a a a a").length 0 := by
    decide
  refine ⟨hmem, fun h => ?_⟩
  have htext : ¬ Blank "a a a a a a a a a a a a a a a a a a a a".toList :=
    fun hblank => absurd (hblank 'a' (by decide)) (by decide)
  exact absurd ((h _ (.typed htext)).writes 20 hmem) (by decide)

end Shell
end OsHomework
