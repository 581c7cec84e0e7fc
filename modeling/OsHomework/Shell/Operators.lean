import OsHomework.Shell.Dispatch
import OsHomework.Shell.Redirect
import Mathlib.Order.WellFounded

/-!
# Splitting a line at an operator

The constructors of `RedirectionCommand` and `PipeCommand` split their line at the
first `>` or `|`. They look one character further, for a second `>` or for a `&`,
and trim what stands on the two sides. Both do it in the same way, so they are one
definition here (`splitAtOperator`), with the two characters as parameters.

Positions count bytes and are an `int` in both constructors, while a line may be of
any length: a result `none` is a position that an `int` does not hold, an index
behind the terminating zero of the string, or a `substr` that throws. Of these only
the first one happens (`splitAtOperator_eq_some`, `splitAtOperator_eq_none`). Before
all this the constructor of `Command` parses the same line, and writes behind its
slots if there are too many words. So nothing is lost exactly on the lines of fewer
than `COMMAND_MAX_ARGS` words whose operator is followed by no position above
`INT_MAX` (`splitting_loses_nothing_iff`).

A command is executed by making commands of the parts of its line
(`subcommands`). Each part is shorter than the line, so this comes to an end.
-/

namespace OsHomework
namespace Shell

open Stoi

/-! ### The constructors -/

/-- `INT_MAX`. -/
def intMax : ℕ := 2 ^ 31 - 1

/-- An addition of two `int` values that are not negative. -/
def intAdd (a b : ℕ) : Option ℕ := if a + b ≤ intMax then some (a + b) else none

/-- The loop that counts `i` up to the first `op`: its position, or `none` inside if there is no
`op`. The bytes of one character are passed in one step. -/
def findOperator (op : Char) : ℕ → List Char → Option (Option ℕ)
  | _, [] => some none
  | i, c :: cs =>
    if c = op then some (some i) else (intAdd i c.utf8Size).bind fun i => findOperator op i cs

/-- What stands behind `n` bytes; `none` behind the end, and inside a character. -/
def dropBytes : ℕ → List Char → Option (List Char)
  | 0, s => some s
  | _ + 1, [] => none
  | n + 1, c :: s =>
    if c.utf8Size ≤ n + 1 then dropBytes (n + 1 - c.utf8Size) s else none

/-- The first `n` bytes, or all if there are fewer. -/
def takeBytes : ℕ → List Char → List Char
  | _, [] => []
  | n, c :: s => if c.utf8Size ≤ n then c :: takeBytes (n - c.utf8Size) s else []

/-- `s[i]` for a string with a terminating zero. -/
def charAt (s : List Char) (i : ℕ) : Option Char := (dropBytes i (s ++ ['\x00'])).bind List.head?

/-- `s.substr(pos, n)`, which throws for a position behind the end. -/
def substr (s : List Char) (pos n : ℕ) : Option (List Char) := (dropBytes pos s).map (takeBytes n)

/-- A line, split at an operator. -/
structure Parts where
  first : List Char
  /-- The operator is the one of two characters. -/
  marked : Bool
  second : List Char
  deriving DecidableEq, Repr

/-- The common text of the two constructors. `notFound` is the position they go on with when there
is no `op` at all. -/
def splitAtOperator (op mark : Char) (notFound : ℕ) (s : List Char) : Option Parts := do
  let pos := (← findOperator op 0 s).getD notFound
  let first ← substr s 0 pos
  let start ← intAdd pos 1
  let c ← charAt s start
  if c = mark then
    let start ← intAdd start 1
    let second ← substr s start (byteLength s - pos - 1)
    return ⟨trim first, true, trim second⟩
  else
    let second ← substr s start (byteLength s - pos - 1)
    return ⟨trim first, false, trim second⟩

/-- The body of `RedirectionCommand::RedirectionCommand`: what stands before the arrow is the
command, what stands behind it the name of the file. -/
def splitRedirection (cmdLine : String) : Option Parts :=
  splitAtOperator '>' '>' (byteLength cmdLine.toList) cmdLine.toList

/-- The body of `PipeCommand::PipeCommand`. -/
def splitPipe (cmdLine : String) : Option Parts := splitAtOperator '|' '&' 0 cmdLine.toList

/-- `RedirectionCommand::RedirectionCommand`, with the constructor of `Command` before it. -/
def mkRedirection (cmdLine : String) : Option Parts :=
  (mkCommand cmdLine).bind fun _ => splitRedirection cmdLine

/-- `PipeCommand::PipeCommand`, with the constructor of `Command` before it. -/
def mkPipe (cmdLine : String) : Option Parts := (mkCommand cmdLine).bind fun _ => splitPipe cmdLine

/-- The strings that `CreateCommand` is called with while the command made of a line is executed, as
far as the text of the line decides it: what the constructor of `Command` does with its slots is
left out. `executeCommand`, which a redirection goes through, does nothing for a blank line; the two
children of a pipe call `CreateCommand` themselves. -/
def subcommands (cmdLine : String) : Option (List String) :=
  match createCommand cmdLine with
  | .redirection => (splitRedirection cmdLine).map fun p =>
    if p.first.all Stoi.isspace then [] else [String.ofList p.first]
  | .pipe => (splitPipe cmdLine).map fun p => [String.ofList p.first, String.ofList p.second]
  | _ => some []

/-! ### What a split should be -/

/-- The text of the operator. -/
def operator (op mark : Char) (marked : Bool) : List Char := if marked then [op, mark] else [op]

/-- The line is put together from the two parts and the operator between them, which is the one of
two characters if it can be. -/
def SplitsAt (op mark : Char) (s : List Char) (p : Parts) : Prop :=
  ∃ a b, s = a ++ operator op mark p.marked ++ b ∧ op ∉ a ∧
    (p.marked = false → b.head? ≠ some mark) ∧ p.first = trim a ∧ p.second = trim b

/-- The position behind the first operator of a line. -/
def operatorEnd (op mark : Char) (s : List Char) : ℕ :=
  byteLength (s.takeWhile (· ≠ op)) +
    if ((s.dropWhile (· ≠ op)).tail).head? = some mark then 2 else 1

/-! ### The split -/

section

variable {op mark : Char} {s a b : List Char} {i notFound : ℕ}

/-- The loop finds the first operator if its position is an `int`, … -/
theorem findOperator_eq_some (ha : op ∉ a) (hi : i + byteLength a ≤ intMax) :
    findOperator op i (a ++ op :: b) = some (some (i + byteLength a)) := by
  induction a generalizing i with
  | nil => rw [List.nil_append, findOperator, if_pos rfl, byteLength_nil, Nat.add_zero]
  | cons c a ih =>
    have hc : c ≠ op := fun heq => ha (heq ▸ List.mem_cons_self)
    rw [byteLength_cons] at hi ⊢
    -- the character is no operator, and the position behind it is an `int`
    have hstep : intAdd i c.utf8Size = some (i + c.utf8Size) := if_pos (by omega)
    have ha' : op ∉ a := fun hmem => ha (List.mem_cons_of_mem c hmem)
    calc findOperator op i (c :: (a ++ op :: b))
        = findOperator op (i + c.utf8Size) (a ++ op :: b) := by
          rw [findOperator, if_neg hc, hstep, Option.bind_some]
      _ = some (some (i + c.utf8Size + byteLength a)) := ih ha' (by omega)
      _ = some (some (i + (c.utf8Size + byteLength a))) := by rw [Nat.add_assoc]

/-- … and leaves the range of `int` if not. -/
theorem findOperator_eq_none (ha : op ∉ a) (hi : i ≤ intMax)
    (hlong : intMax < i + byteLength a) :
    findOperator op i (a ++ op :: b) = none := by
  induction a generalizing i with
  | nil =>
    rw [byteLength_nil] at hlong
    omega
  | cons c a ih =>
    have hc : c ≠ op := fun heq => ha (heq ▸ List.mem_cons_self)
    rw [byteLength_cons] at hlong
    rw [List.cons_append, findOperator, if_neg hc]
    -- the overflow is here or further on
    by_cases hstep : i + c.utf8Size ≤ intMax
    · rw [intAdd, if_pos hstep, Option.bind_some]
      exact ih (fun hmem => ha (List.mem_cons_of_mem c hmem)) hstep (by omega)
    · rw [intAdd, if_neg hstep]
      rfl

theorem dropBytes_append (a b : List Char) : dropBytes (byteLength a) (a ++ b) = some b := by
  induction a with
  | nil => rw [byteLength_nil, List.nil_append, dropBytes]
  | cons c a ih =>
    -- a character has a byte at least
    obtain ⟨k, hk⟩ := Nat.exists_eq_add_one_of_ne_zero c.utf8Size_pos.ne'
    have hsum : byteLength (c :: a) = k + byteLength a + 1 := by
      rw [byteLength_cons, hk]
      omega
    rw [hsum, List.cons_append, dropBytes, if_pos (by omega), hk, Nat.add_sub_add_right,
      Nat.add_sub_cancel_left, ih]

theorem takeBytes_of_le {s : List Char} {n : ℕ} (h : byteLength s ≤ n) : takeBytes n s = s := by
  induction s generalizing n with
  | nil => rfl
  | cons c s ih =>
    rw [byteLength_cons] at h
    rw [takeBytes, if_pos (by omega), ih (by omega)]

theorem takeBytes_append (a b : List Char) : takeBytes (byteLength a) (a ++ b) = a := by
  induction a with
  | nil =>
    cases b with
    | nil => rfl
    | cons c b => exact if_neg (not_le.mpr c.utf8Size_pos)
  | cons c a ih =>
    rw [byteLength_cons, List.cons_append, takeBytes, if_pos (Nat.le_add_right _ _),
      Nat.add_sub_cancel_left, ih]

/-- The character behind the operator is looked at, or the terminating zero. -/
theorem charAt_eq (hop : op.utf8Size = 1) (a b : List Char) :
    charAt (a ++ op :: b) (byteLength a + 1) = some (b.head?.getD '\x00') := by
  have hpos : byteLength (a ++ [op]) = byteLength a + 1 := by simp [hop]
  -- the string goes on with its terminating zero
  have hcut : a ++ op :: b ++ ['\x00'] = (a ++ [op]) ++ (b ++ ['\x00']) := by simp
  rw [charAt, hcut, ← hpos, dropBytes_append, Option.bind_some]
  cases b <;> rfl

theorem substr_eq (a b : List Char) (n : ℕ) (h : byteLength b ≤ n) :
    substr (a ++ b) (byteLength a) n = some b := by
  rw [substr, dropBytes_append, Option.map_some, takeBytes_of_le h]

theorem substr_zero (a b : List Char) : substr (a ++ b) 0 (byteLength a) = some a := by
  rw [substr, dropBytes, Option.map_some, takeBytes_append]

/-- **The split**, on a line where the position behind the operator is an `int`. -/
theorem splitAtOperator_eq_some (hop : op.utf8Size = 1) (hsize : mark.utf8Size = 1)
    (hmark : mark ≠ '\x00') (ha : op ∉ a)
    (hfits : byteLength a + (if b.head? = some mark then 2 else 1) ≤ intMax) :
    splitAtOperator op mark notFound (a ++ op :: b) =
      some (if b.head? = some mark then ⟨trim a, true, trim b.tail⟩
        else ⟨trim a, false, trim b⟩) := by
  have hpos : byteLength a + 1 ≤ intMax := by split at hfits <;> omega
  -- the operator is found where the first part ends
  have hfind : findOperator op 0 (a ++ op :: b) = some (some (byteLength a)) := by
    rw [findOperator_eq_some ha (by omega), Nat.zero_add]
  have hstart : intAdd (byteLength a) 1 = some (byteLength a + 1) := if_pos hpos
  have hrest : byteLength (a ++ op :: b) - byteLength a - 1 = byteLength b := by
    rw [byteLength_append, byteLength_cons, hop]
    omega
  have hone : byteLength (a ++ [op]) = byteLength a + 1 := by simp [hop]
  unfold splitAtOperator
  simp only [hfind, Option.bind_eq_bind, Option.bind_some, Option.getD_some, substr_zero,
    hstart, charAt_eq hop, hrest]
  cases b with
  | nil =>
    -- the line ends with the operator, and `charAt` reads the final `NUL`
    have hsecond := substr_eq (a ++ [op]) [] 0 (Nat.le_refl 0)
    rw [List.append_nil, hone] at hsecond
    rw [if_neg (show ¬ ([] : List Char).head?.getD '\x00' = mark from hmark.symm),
      if_neg (show ¬ ([] : List Char).head? = some mark by simp), byteLength_nil, hsecond]
    rfl
  | cons c b =>
    by_cases hc : c = mark
    · -- the operator of two characters
      subst hc
      rw [if_pos (by rfl)] at hfits
      have hnext : intAdd (byteLength a + 1) 1 = some (byteLength a + 2) := if_pos hfits
      have htwo : byteLength (a ++ [op, c]) = byteLength a + 2 := by simp [hop, hsize]
      have hsecond := substr_eq (a ++ [op, c]) b (byteLength (c :: b)) (Nat.le_add_left _ _)
      rw [htwo, List.append_assoc] at hsecond
      rw [if_pos (by rfl), if_pos (by rfl), hnext]
      simp only [Option.bind_some]
      rw [show substr (a ++ op :: c :: b) (byteLength a + 2) (byteLength (c :: b)) = some b
        from hsecond]
      rfl
    · -- the operator of one character
      have hsecond := substr_eq (a ++ [op]) (c :: b) (byteLength (c :: b)) (Nat.le_refl _)
      rw [hone, List.append_assoc] at hsecond
      rw [if_neg (by simpa using hc), if_neg (by simpa using hc),
        show substr (a ++ op :: c :: b) (byteLength a + 1) (byteLength (c :: b)) = some (c :: b)
          from hsecond]
      rfl

/-- The constructor on a line where it is not. -/
theorem splitAtOperator_eq_none (hop : op.utf8Size = 1) (ha : op ∉ a)
    (hlong : intMax < byteLength a + (if b.head? = some mark then 2 else 1)) :
    splitAtOperator op mark notFound (a ++ op :: b) = none := by
  unfold splitAtOperator
  by_cases hpos : byteLength a ≤ intMax
  · have hfind : findOperator op 0 (a ++ op :: b) = some (some (byteLength a)) := by
      rw [findOperator_eq_some ha (by omega), Nat.zero_add]
    simp only [hfind, Option.bind_eq_bind, Option.bind_some, Option.getD_some, substr_zero]
    by_cases hstart : byteLength a + 1 ≤ intMax
    · -- the operator has two characters, and the second one is at `INT_MAX`
      have hhead : b.head? = some mark := by
        by_contra hne
        rw [if_neg hne] at hlong
        omega
      rw [if_pos hhead] at hlong
      have hnext : intAdd (byteLength a + 1) 1 = none := if_neg (by omega)
      rw [intAdd, if_pos hstart, Option.bind_some, charAt_eq hop, hhead, Option.bind_some,
        Option.getD_some, if_pos rfl, hnext]
      rfl
    · -- the position behind the operator is no `int`
      rw [intAdd, if_neg hstart]
      rfl
  · -- the loop leaves the range of `int` before it finds the operator
    rw [findOperator_eq_none ha (Nat.zero_le _) (by omega)]
    rfl

/-- A line with an operator, cut at the first one. -/
theorem eq_append_operator (h : op ∈ s) :
    s = s.takeWhile (· ≠ op) ++ op :: (s.dropWhile (· ≠ op)).tail ∧
      op ∉ s.takeWhile (· ≠ op) := by
  -- the operator stands in the line, so that something is left
  have hne : s.dropWhile (· ≠ op) ≠ [] := by
    intro hnil
    simpa using List.dropWhile_eq_nil_iff.mp hnil op h
  obtain ⟨c, r, hr⟩ := List.exists_cons_of_ne_nil hne
  have hc : c = op := by
    have hstop := head?_dropWhile_eq_false (show c ∈ (s.dropWhile (· ≠ op)).head? by rw [hr]; rfl)
    simpa using hstop
  refine ⟨?_, fun hmem => by simpa using List.mem_takeWhile_imp hmem⟩
  conv_lhs => rw [← List.takeWhile_append_dropWhile (p := (· ≠ op)) (l := s), hr, hc]
  rw [hr, List.tail_cons]

theorem operatorEnd_le_byteLength (hop : op.utf8Size = 1) (hsize : mark.utf8Size = 1)
    (h : op ∈ s) : operatorEnd op mark s ≤ byteLength s := by
  obtain ⟨hs, -⟩ := eq_append_operator h
  unfold operatorEnd
  -- the line has the first part, the operator and the rest
  have hlen := congrArg byteLength hs
  rw [byteLength_append, byteLength_cons, hop] at hlen
  split
  · next hhead =>
    obtain ⟨b, hb⟩ := List.head?_eq_some_iff.mp hhead
    rw [hb, byteLength_cons, hsize] at hlen
    omega
  · omega

/-- The two constructors split at the first operator, and nothing is lost, if the position behind it
is an `int`. -/
theorem exists_splitsAt (hop : op.utf8Size = 1) (hsize : mark.utf8Size = 1) (hmark : mark ≠ '\x00')
    (h : op ∈ s) (hfits : operatorEnd op mark s ≤ intMax) :
    ∃ p, splitAtOperator op mark notFound s = some p ∧ SplitsAt op mark s p := by
  obtain ⟨hs, ha⟩ := eq_append_operator h
  unfold operatorEnd at hfits
  generalize s.takeWhile (· ≠ op) = a at hs ha hfits
  generalize (s.dropWhile (· ≠ op)).tail = b at hs hfits
  subst hs
  refine ⟨_, splitAtOperator_eq_some hop hsize hmark ha hfits, ?_⟩
  by_cases hhead : b.head? = some mark
  · rw [if_pos hhead]
    refine ⟨a, b.tail, ?_, ha, fun hfalse => Bool.noConfusion hfalse, rfl, rfl⟩
    obtain ⟨b, rfl⟩ := List.head?_eq_some_iff.mp hhead
    simp [operator]
  · rw [if_neg hhead]
    exact ⟨a, b, by simp [operator], ha, fun _ => hhead, rfl, rfl⟩

/-- … and they have no result if it is not. -/
theorem splitAtOperator_of_long (hop : op.utf8Size = 1) (h : op ∈ s)
    (hlong : intMax < operatorEnd op mark s) : splitAtOperator op mark notFound s = none := by
  obtain ⟨hs, ha⟩ := eq_append_operator h
  rw [hs]
  exact splitAtOperator_eq_none hop ha hlong

/-- Whatever the constructors make is a split. -/
theorem splitsAt_of_eq_some (hop : op.utf8Size = 1) (hsize : mark.utf8Size = 1)
    (hmark : mark ≠ '\x00') (h : op ∈ s) {p : Parts}
    (hp : splitAtOperator op mark notFound s = some p) : SplitsAt op mark s p := by
  by_cases hfits : operatorEnd op mark s ≤ intMax
  · obtain ⟨q, hq, hsplit⟩ := exists_splitsAt hop hsize hmark h hfits
    -- the constructor has one result only
    obtain rfl := Option.some.inj (hp.symm.trans hq)
    exact hsplit
  · rw [splitAtOperator_of_long hop h (not_le.mp hfits)] at hp
    cases hp

/-- Both parts are shorter than the line. -/
theorem SplitsAt.length_lt {p : Parts} (h : SplitsAt op mark s p) :
    p.first.length < s.length ∧ p.second.length < s.length := by
  obtain ⟨a, b, rfl, -, -, hfirst, hsecond⟩ := h
  have hop : 0 < (operator op mark p.marked).length := by
    unfold operator
    split <;> exact Nat.succ_pos _
  -- trimming does not make a part longer, and the operator is in neither
  have h₁ : p.first.length ≤ a.length := hfirst ▸ length_strip_le Stoi.isspace a
  have h₂ : p.second.length ≤ b.length := hsecond ▸ length_strip_le Stoi.isspace b
  rw [List.length_append, List.length_append]
  omega

/-- The first part is what stands before the first operator. -/
theorem SplitsAt.first_eq {p : Parts} (h : SplitsAt op mark s p) :
    p.first = trim (s.takeWhile (· ≠ op)) := by
  obtain ⟨a, b, rfl, ha, -, hfirst, -⟩ := h
  have hop : ∃ r, operator op mark p.marked = op :: r := by
    unfold operator
    split
    · exact ⟨_, rfl⟩
    · exact ⟨_, rfl⟩
  obtain ⟨r, hr⟩ := hop
  rw [hfirst, hr, List.append_assoc, List.takeWhile_append_of_pos, List.cons_append,
    List.takeWhile_cons_of_neg (by simp), List.append_nil]
  intro c hc
  simpa using fun heq : c = op => ha (heq ▸ hc)

/-- What stands before the first operator has none. -/
theorem SplitsAt.notMem_first (hop : Stoi.isspace op = false) {p : Parts}
    (h : SplitsAt op mark s p) : op ∉ p.first := by
  obtain ⟨a, b, -, ha, -, hfirst, -⟩ := h
  rw [hfirst]
  exact fun hmem => ha ((mem_trim_iff hop).mp hmem)

end

theorem splitRedirection_of_mkRedirection {cmdLine : String} {p : Parts}
    (h : mkRedirection cmdLine = some p) :
    splitRedirection cmdLine = some p := by
  obtain ⟨cmd, -, hp⟩ := Option.bind_eq_some_iff.mp h
  exact hp

/-- What the constructor makes of a line with an arrow is a command that
`RedirectionCommand.execute` takes. -/
theorem exists_redirectionCommand {cmdLine : String} {p : Parts} (h : '>' ∈ cmdLine.toList)
    (hp : mkRedirection cmdLine = some p) :
    ∃ c : RedirectionCommand, c.isAppend = p.marked ∧ c.fileName = String.ofList p.second ∧
      c.cmdLine = String.ofList p.first := by
  have hsplit := splitsAt_of_eq_some rfl rfl (by decide) h (splitRedirection_of_mkRedirection hp)
  have hno := hsplit.notMem_first (by decide)
  exact ⟨⟨p.marked, String.ofList p.second, String.ofList p.first,
    by rwa [String.toList_ofList]⟩, rfl, rfl, rfl⟩

/-! ### The parts of the parts -/

section

variable {cmdLine part : String} {parts : List String}

theorem createCommand_of_arrow (h : '>' ∈ cmdLine.toList) :
    createCommand cmdLine = .redirection := by
  unfold createCommand
  exact if_pos ((mem_trim_iff (by decide)).mpr h)

theorem createCommand_of_pipe (harrow : '>' ∉ cmdLine.toList) (h : '|' ∈ cmdLine.toList) :
    createCommand cmdLine = .pipe := by
  have harrow' : '>' ∉ trim cmdLine.toList := by rwa [mem_trim_iff (by decide)]
  unfold createCommand
  dsimp only
  rw [if_neg harrow']
  exact if_pos ((mem_trim_iff (by decide)).mpr h)

theorem subcommands_of_arrow (h : '>' ∈ cmdLine.toList) :
    subcommands cmdLine = (splitRedirection cmdLine).map fun p =>
      if p.first.all Stoi.isspace then [] else [String.ofList p.first] := by
  unfold subcommands
  rw [createCommand_of_arrow h]

theorem subcommands_of_pipe (harrow : '>' ∉ cmdLine.toList) (h : '|' ∈ cmdLine.toList) :
    subcommands cmdLine =
      (splitPipe cmdLine).map fun p => [String.ofList p.first, String.ofList p.second] := by
  unfold subcommands
  rw [createCommand_of_pipe harrow h]

/-- A command without an operator has no parts. -/
theorem subcommands_of_plain (harrow : '>' ∉ cmdLine.toList) (hpipe : '|' ∉ cmdLine.toList) :
    subcommands cmdLine = some [] := by
  unfold subcommands
  rcases createCommand_cases harrow hpipe with ⟨b, -, hclass⟩ | ⟨-, hclass⟩
  · rw [hclass]
    cases b <;> rfl
  · rw [hclass]

/-- **What the parts of a line can be.** -/
theorem subcommands_cases (h : subcommands cmdLine = some parts) :
    ('>' ∈ cmdLine.toList ∧ ∃ p, SplitsAt '>' '>' cmdLine.toList p ∧
      parts = if p.first.all Stoi.isspace then [] else [String.ofList p.first]) ∨
    ('>' ∉ cmdLine.toList ∧ '|' ∈ cmdLine.toList ∧ ∃ p, SplitsAt '|' '&' cmdLine.toList p ∧
      parts = [String.ofList p.first, String.ofList p.second]) ∨
    ('>' ∉ cmdLine.toList ∧ '|' ∉ cmdLine.toList ∧ parts = []) := by
  by_cases harrow : '>' ∈ cmdLine.toList
  · rw [subcommands_of_arrow harrow] at h
    obtain ⟨p, hp, rfl⟩ := Option.map_eq_some_iff.mp h
    exact Or.inl ⟨harrow, p, splitsAt_of_eq_some rfl rfl (by decide) harrow hp, rfl⟩
  · by_cases hpipe : '|' ∈ cmdLine.toList
    · rw [subcommands_of_pipe harrow hpipe] at h
      obtain ⟨p, hp, rfl⟩ := Option.map_eq_some_iff.mp h
      exact Or.inr (Or.inl
        ⟨harrow, hpipe, p, splitsAt_of_eq_some rfl rfl (by decide) hpipe hp, rfl⟩)
    · rw [subcommands_of_plain harrow hpipe] at h
      exact Or.inr (Or.inr ⟨harrow, hpipe, (Option.some.inj h).symm⟩)

/-- Every part of a line that a command is made of is shorter. -/
theorem length_lt_of_mem_subcommands (h : subcommands cmdLine = some parts) (hmem : part ∈ parts) :
    part.toList.length < cmdLine.toList.length := by
  rcases subcommands_cases h with ⟨-, p, hsplit, rfl⟩ | ⟨-, -, p, hsplit, rfl⟩ | ⟨-, -, rfl⟩
  · split at hmem
    · cases hmem
    · rw [List.mem_singleton.mp hmem, String.toList_ofList]
      exact hsplit.length_lt.1
  · rcases List.mem_pair.mp hmem with rfl | rfl
    · rw [String.toList_ofList]
      exact hsplit.length_lt.1
    · rw [String.toList_ofList]
      exact hsplit.length_lt.2
  · cases hmem

theorem byteLength_le_of_sublist {s s' : List Char} (h : s.Sublist s') :
    byteLength s ≤ byteLength s' := by
  induction h with
  | slnil => exact Nat.le_refl _
  | cons c _ ih =>
    rw [byteLength_cons]
    exact ih.trans (Nat.le_add_left _ _)
  | cons_cons c _ ih =>
    rw [byteLength_cons, byteLength_cons]
    exact Nat.add_le_add_left ih _

theorem SplitsAt.sublists {op mark : Char} {s : List Char} {p : Parts} (h : SplitsAt op mark s p) :
    p.first.Sublist s ∧ p.second.Sublist s := by
  obtain ⟨a, b, rfl, -, -, hfirst, hsecond⟩ := h
  -- trimming takes away at both ends
  have hstrip : ∀ l : List Char, (trim l).Sublist l := fun l =>
    (List.rdropWhile_prefix Stoi.isspace _).sublist.trans (List.dropWhile_sublist _)
  rw [hfirst, hsecond]
  exact ⟨(hstrip a).trans (List.sublist_append_of_sublist_left (List.sublist_append_left _ _)),
    (hstrip b).trans (List.sublist_append_right _ _)⟩

/-- … and has no more bytes. -/
theorem byteLength_le_of_mem_subcommands (h : subcommands cmdLine = some parts)
    (hmem : part ∈ parts) : byteLength part.toList ≤ byteLength cmdLine.toList := by
  rcases subcommands_cases h with ⟨-, p, hsplit, rfl⟩ | ⟨-, -, p, hsplit, rfl⟩ | ⟨-, -, rfl⟩
  · split at hmem
    · cases hmem
    · rw [List.mem_singleton.mp hmem, String.toList_ofList]
      exact byteLength_le_of_sublist hsplit.sublists.1
  · rcases List.mem_pair.mp hmem with rfl | rfl
    · rw [String.toList_ofList]
      exact byteLength_le_of_sublist hsplit.sublists.1
    · rw [String.toList_ofList]
      exact byteLength_le_of_sublist hsplit.sublists.2
  · cases hmem

/-- Making commands of the parts, and of their parts, comes to an end. -/
theorem subcommands_wellFounded :
    WellFounded fun part line : String =>
      ∃ parts, subcommands line = some parts ∧ part ∈ parts := by
  -- the length of the line decreases
  refine Subrelation.wf ?_ (measure fun line : String => line.toList.length).wf
  rintro part line ⟨parts, hparts, hmem⟩
  exact length_lt_of_mem_subcommands hparts hmem

end

section

theorem mkRedirection_eq (cmdLine : String) : mkRedirection cmdLine =
    if (params cmdLine).length < commandMaxArgs then splitRedirection cmdLine else none := by
  unfold mkRedirection
  split
  · next hshort =>
    obtain ⟨rest, hcmd⟩ := exists_mkCommand hshort
    rw [hcmd, Option.bind_some]
  · next hlong => rw [mkCommand_of_long (not_lt.mp hlong), Option.bind_none]

theorem mkPipe_eq (cmdLine : String) : mkPipe cmdLine =
    if (params cmdLine).length < commandMaxArgs then splitPipe cmdLine else none := by
  unfold mkPipe
  split
  · next hshort =>
    obtain ⟨rest, hcmd⟩ := exists_mkCommand hshort
    rw [hcmd, Option.bind_some]
  · next hlong => rw [mkCommand_of_long (not_lt.mp hlong), Option.bind_none]

/-- One constructor, whose body is a split: it has a result that loses nothing exactly if the words
fit into the slots and the position behind the operator into an `int`. -/
theorem exists_splitsAt_iff {op mark : Char} {notFound : ℕ} {s : List Char} {words : ℕ}
    (hop : op.utf8Size = 1) (hsize : mark.utf8Size = 1) (hmark : mark ≠ '\x00') (h : op ∈ s) :
    (∃ p, (if words < commandMaxArgs then splitAtOperator op mark notFound s else none) = some p ∧
        SplitsAt op mark s p ∧ p.first.length < s.length ∧ p.second.length < s.length) ↔
      words < commandMaxArgs ∧ operatorEnd op mark s ≤ intMax := by
  constructor
  · rintro ⟨p, hp, -⟩
    split at hp
    · next hshort =>
      -- with a position that is no `int` there is no result
      refine ⟨hshort, not_lt.mp fun hlong => ?_⟩
      rw [splitAtOperator_of_long hop h hlong] at hp
      cases hp
    · cases hp
  · rintro ⟨hshort, hfits⟩
    obtain ⟨p, hp, hsplit⟩ := exists_splitsAt hop hsize hmark h hfits
    exact ⟨p, by rw [if_pos hshort, hp], hsplit, hsplit.length_lt⟩

end

/-- **Splitting at operators.** The two constructors split a line there and lose nothing but white
space around the parts exactly if the line has fewer than `COMMAND_MAX_ARGS` words and the position
behind its first operator is an `int`. Every part that a command is made of is shorter than its
line, and splitting the parts again comes to an end. -/
theorem splitting_loses_nothing_iff (cmdLine : String) :
    ('>' ∈ cmdLine.toList →
      ((∃ p, mkRedirection cmdLine = some p ∧ SplitsAt '>' '>' cmdLine.toList p ∧
          p.first.length < cmdLine.toList.length ∧ p.second.length < cmdLine.toList.length) ↔
        (params cmdLine).length < commandMaxArgs ∧
          operatorEnd '>' '>' cmdLine.toList ≤ intMax)) ∧
    ('|' ∈ cmdLine.toList →
      ((∃ p, mkPipe cmdLine = some p ∧ SplitsAt '|' '&' cmdLine.toList p ∧
          p.first.length < cmdLine.toList.length ∧ p.second.length < cmdLine.toList.length) ↔
        (params cmdLine).length < commandMaxArgs ∧
          operatorEnd '|' '&' cmdLine.toList ≤ intMax)) ∧
    (∀ parts, subcommands cmdLine = some parts →
      ∀ part ∈ parts, part.toList.length < cmdLine.toList.length) ∧
    WellFounded fun part line : String =>
      ∃ parts, subcommands line = some parts ∧ part ∈ parts := by
  refine ⟨fun h => ?_, fun h => ?_, fun parts h part hmem => ?_, subcommands_wellFounded⟩
  · rw [mkRedirection_eq]
    exact exists_splitsAt_iff rfl rfl (by decide) h
  · rw [mkPipe_eq]
    exact exists_splitsAt_iff rfl rfl (by decide) h
  · exact length_lt_of_mem_subcommands h hmem

/-- `>>` at the end of a line, and a pipe with `&`. -/
theorem splitting_loses_nothing_at_end :
    (∃ p, mkRedirection "ls >>" = some p ∧ SplitsAt '>' '>' "ls >>".toList p ∧
      p.first.length < "ls >>".toList.length ∧ p.second.length < "ls >>".toList.length) ∧
    ∃ p, mkPipe "ls |& wc" = some p ∧ SplitsAt '|' '&' "ls |& wc".toList p ∧
      p.first.length < "ls |& wc".toList.length ∧ p.second.length < "ls |& wc".toList.length :=
  ⟨((splitting_loses_nothing_iff "ls >>").1 (by decide)).mpr (by decide),
    ((splitting_loses_nothing_iff "ls |& wc").2.1 (by decide)).mpr (by decide)⟩

/-- Twenty words, an arrow and the name of the file among them: the constructor of `Command` writes
behind its slots. -/
theorem split_overflows :
    '>' ∈ "a a a a a a a a a a a a a a a a a a > f".toList ∧
      mkRedirection "a a a a a a a a a a a a a a a a a a > f" = none :=
  ⟨by decide, by decide⟩

end Shell
end OsHomework
