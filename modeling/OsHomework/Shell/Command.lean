import OsHomework.Lib.Stoi
import OsHomework.Lib.Tokens

/-!
# A command and its parameters

The constructor of `Command` erases every `&` of the line, allocates
`COMMAND_MAX_ARGS` slots and stores the words of the line in them, each followed
by a `NULL` that the next word overwrites. `malloc` sets no slot, so the slots
behind the `NULL` hold anything.

A line is a `String`, and what the program reads are the bytes of its UTF-8 text. The
characters that the source looks for are all ASCII, which no other character has a
byte of, so that a text is always cut between characters. Where the number of bytes
matters it is that of `byteLength`.

`SmallShell::CreateCommand` looks at the line once more to choose the class of
the command. It takes the first word by rules of its own: it cuts at a blank or a
line feed only, and leaves the `&` in.
-/

namespace OsHomework
namespace Shell

/-- The number of bytes of a text. -/
def byteLength (s : List Char) : ℕ := (s.map Char.utf8Size).sum

@[simp] theorem byteLength_nil : byteLength [] = 0 := rfl

@[simp] theorem byteLength_cons (c : Char) (s : List Char) :
    byteLength (c :: s) = c.utf8Size + byteLength s := rfl

@[simp] theorem byteLength_append (s s' : List Char) :
    byteLength (s ++ s') = byteLength s + byteLength s' := by
  rw [byteLength, List.map_append, List.sum_append, byteLength, byteLength]

/-! ### The parameters -/

/-- `COMMAND_MAX_ARGS`. -/
def commandMaxArgs : ℕ := 20

/-- A slot of `parametrs`. -/
inductive Slot
  /-- As `malloc` has left it. -/
  | unset
  | null
  | param (text : String)
  deriving DecidableEq, Repr

/-- `Command`, without the line itself. -/
structure Command where
  parametrs : List Slot
  numOfParams : ℕ
  deriving DecidableEq, Repr

/-- `_trim`. -/
def trim (s : List Char) : List Char := (s.dropWhile Stoi.isspace).rdropWhile Stoi.isspace

/-- The words that `iss >> s` takes out of a line, one after another. -/
def words (s : List Char) : List String :=
  ((s.splitOnP Stoi.isspace).filter (· ≠ [])).map String.ofList

/-- The loop of `_parseCommandLine`, from `args[i]` on; `none` when it writes
behind the last slot. -/
def parseCommandLine : List String → ℕ → List Slot → Option (List Slot)
  | [], _, args => some args
  | w :: ws, i, args =>
    if i + 1 < args.length then
      parseCommandLine ws (i + 1) ((args.set i (.param w)).set (i + 1) .null)
    else none

/-- The line as the constructor hands it to `_parseCommandLine`: every `&` is
erased. -/
def modifiedCmd (cmdLine : String) : List Char := trim (cmdLine.toList.filter (· ≠ '&'))

/-- The words of the line. -/
def params (cmdLine : String) : List String := words (trim (modifiedCmd cmdLine))

/-- `Command::Command`. -/
def mkCommand (cmdLine : String) : Option Command :=
  (parseCommandLine (params cmdLine) 0 (List.replicate commandMaxArgs .unset)).map
    fun args => ⟨args, (params cmdLine).length⟩

/-- The classes of commands. -/
inductive CommandClass
  | redirection | pipe | chprompt | showpid | pwd | cd | jobs | fg | quit | kill | external
  deriving DecidableEq, Repr

/-- `SmallShell::CreateCommand`, as far as the class it makes. -/
def createCommand (cmdLine : String) : CommandClass :=
  let cmd := trim cmdLine.toList
  let firstWord := String.ofList (cmd.takeWhile fun c => c ≠ ' ' && c ≠ '\n')
  if '>' ∈ cmd then .redirection
  else if '|' ∈ cmd then .pipe
  else if firstWord = "chprompt" ∨ firstWord = "chprompt&" then .chprompt
  else if firstWord = "showpid" ∨ firstWord = "showpid&" then .showpid
  else if firstWord = "pwd" ∨ firstWord = "pwd&" then .pwd
  else if firstWord = "cd" ∨ firstWord = "cd&" then .cd
  else if firstWord = "jobs" ∨ firstWord = "jobs&" then .jobs
  else if firstWord = "fg" ∨ firstWord = "fg&" then .fg
  else if firstWord = "quit" ∨ firstWord = "quit&" then .quit
  -- the source compares with "kill" twice, so `kill&` is an external command
  else if firstWord = "kill" then .kill
  else .external

/-! ### The slots -/

/-- The loop stores its words in front of a `NULL` as long as they fit. -/
theorem parseCommandLine_eq (ws : List String) (pre : List Slot) (s : Slot) (m : ℕ) :
    parseCommandLine ws pre.length (pre ++ s :: List.replicate m .unset) =
      if ws.length ≤ m then
        some (pre ++ ws.map .param ++
          (if ws = [] then s else .null) :: List.replicate (m - ws.length) .unset)
      else none := by
  induction ws generalizing pre s m with
  | nil => simp [parseCommandLine]
  | cons w ws ih =>
    unfold parseCommandLine
    cases m with
    | zero => simp
    | succ m =>
      have hlt : pre.length + 1 < (pre ++ s :: List.replicate (m + 1) Slot.unset).length := by
        simp
      -- the word goes into its slot, and a `NULL` into the next one
      have hset : ((pre ++ s :: List.replicate (m + 1) Slot.unset).set pre.length (.param w)).set
          (pre.length + 1) .null = (pre ++ [.param w]) ++ .null :: List.replicate m .unset := by
        simp [List.replicate_succ]
      have ih := ih (pre ++ [.param w]) .null m
      rw [List.length_append, List.length_singleton] at ih
      rw [if_pos hlt, hset, ih]
      simp only [List.length_cons, Nat.add_le_add_iff_right, List.map_cons, List.append_assoc,
        List.cons_append, ite_self, Nat.add_sub_add_right,
        if_neg (List.cons_ne_nil w ws), List.nil_append]

/-- The constructor, on a line with at least one word. -/
theorem mkCommand_eq {cmdLine : String} (hne : params cmdLine ≠ []) :
    mkCommand cmdLine =
      if (params cmdLine).length < commandMaxArgs then
        some ⟨(params cmdLine).map .param ++ .null ::
          List.replicate (19 - (params cmdLine).length) .unset, (params cmdLine).length⟩
      else none := by
  have hslots : List.replicate commandMaxArgs Slot.unset = .unset :: List.replicate 19 .unset := rfl
  -- the loop starts with twenty slots as `malloc` left them
  have h := parseCommandLine_eq (params cmdLine) [] .unset 19
  rw [if_neg hne, List.length_nil, List.nil_append, List.nil_append, ← hslots] at h
  unfold mkCommand
  rw [h]
  by_cases hlt : (params cmdLine).length < commandMaxArgs
  · rw [if_pos hlt, if_pos (Nat.le_of_lt_succ hlt), Option.map_some]
  · rw [if_neg hlt, if_neg fun hle => hlt (Nat.lt_succ_of_le hle), Option.map_none]

/-- The constructor on a line whose words fit: they stand in the first slots. -/
theorem exists_mkCommand {cmdLine : String} (h : (params cmdLine).length < commandMaxArgs) :
    ∃ rest, mkCommand cmdLine =
      some ⟨(params cmdLine).map .param ++ rest, (params cmdLine).length⟩ := by
  by_cases hne : params cmdLine = []
  · refine ⟨List.replicate commandMaxArgs .unset, ?_⟩
    unfold mkCommand
    rw [hne, parseCommandLine]
    rfl
  · refine ⟨.null :: List.replicate (19 - (params cmdLine).length) .unset, ?_⟩
    rw [mkCommand_eq hne, if_pos h]

/-- The constructor on a line with too many words. -/
theorem mkCommand_of_long {cmdLine : String} (h : commandMaxArgs ≤ (params cmdLine).length) :
    mkCommand cmdLine = none := by
  have hne : params cmdLine ≠ [] := by
    intro hnil
    rw [hnil] at h
    exact absurd h (by decide)
  rw [mkCommand_eq hne, if_neg (not_lt.mpr h)]

/-! ### The words of a line -/

theorem mem_trim_iff {s : List Char} {c : Char} (hc : Stoi.isspace c = false) :
    c ∈ trim s ↔ c ∈ s := mem_strip_iff hc

theorem words_eq (s : List Char) : words s = (tokens Stoi.isspace s).map String.ofList := by
  unfold words tokens
  congr 1
  exact List.filter_congr fun w _ => by cases w <;> rfl

theorem mem_of_mem_trim {s : List Char} {c : Char} (h : c ∈ trim s) : c ∈ s := by
  obtain ⟨a, b, hs, -, -⟩ := exists_strip Stoi.isspace s
  rw [hs]
  exact List.mem_append_left b (List.mem_append_right a h)

/-- Trimming, which the constructor does twice, changes no word. -/
theorem params_eq (cmdLine : String) :
    params cmdLine =
      (tokens Stoi.isspace (cmdLine.toList.filter (· ≠ '&'))).map String.ofList := by
  unfold params modifiedCmd
  rw [words_eq]
  exact congrArg _ ((tokens_strip _).trans (tokens_strip _))

end Shell
end OsHomework
