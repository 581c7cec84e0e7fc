import OsHomework.Shell.Background

/-!
# Which command a line is dispatched to

The name of a command is found twice. `CreateCommand` trims the line and cuts it
at the first blank or line feed, and compares the result with the name of each
built-in command, with and without a `&` behind it; for `kill` it compares with
`"kill"` both times. The constructor of `Command` erases every `&` and takes the
first of the words that any of the six white space characters may separate.

A line that `CreateCommand` gives to a built-in command has its name as first
parameter, if the constructor can be run at all: with twenty words it writes behind
its slots. The converse fails on the lines that only the constructor reads as the
name (`dispatchAgrees_iff`): those where a `&` stands in front of the name, inside
it, directly behind `kill` or twice behind another name, and those where a white
space character other than a blank and a line feed comes between the name and
more text.
-/

namespace OsHomework
namespace Shell

open Stoi

/-- The built-in commands. -/
inductive BuiltIn
  | chprompt | showpid | pwd | cd | jobs | fg | quit | kill
  deriving DecidableEq, Repr

namespace BuiltIn

def name : BuiltIn → String
  | chprompt => "chprompt"
  | showpid => "showpid"
  | pwd => "pwd"
  | cd => "cd"
  | jobs => "jobs"
  | fg => "fg"
  | quit => "quit"
  | kill => "kill"

def toClass : BuiltIn → CommandClass
  | chprompt => .chprompt
  | showpid => .showpid
  | pwd => .pwd
  | cd => .cd
  | jobs => .jobs
  | fg => .fg
  | quit => .quit
  | kill => .kill

/-- The two texts that `CreateCommand` compares the first word with. -/
def spellings : BuiltIn → List String
  | chprompt => ["chprompt", "chprompt&"]
  | showpid => ["showpid", "showpid&"]
  | pwd => ["pwd", "pwd&"]
  | cd => ["cd", "cd&"]
  | jobs => ["jobs", "jobs&"]
  | fg => ["fg", "fg&"]
  | quit => ["quit", "quit&"]
  | kill => ["kill", "kill"]

theorem toClass_ne_external (b : BuiltIn) : b.toClass ≠ .external := by
  cases b <;> decide

theorem toClass_injective {b b' : BuiltIn} (h : b.toClass = b'.toClass) : b = b' := by
  cases b <;> cases b' <;> first | rfl | exact absurd h (by decide)

theorem name_injective {b b' : BuiltIn} (h : b.name = b'.name) : b = b' := by
  cases b <;> cases b' <;> first | rfl | exact absurd h (by decide)

/-- A spelling is the name, but for a `&`, and neither begins with one nor has white space in it. -/
theorem of_mem_spellings {b : BuiltIn} {w : List Char} (h : String.ofList w ∈ b.spellings) :
    String.ofList (w.filter (· ≠ '&')) = b.name ∧ w ≠ [] ∧ w.head? ≠ some '&' ∧
      ∀ c ∈ w, Stoi.isspace c = false := by
  -- the spellings are few, and are looked at one by one
  have hall : ∀ s ∈ b.spellings, String.ofList (s.toList.filter (· ≠ '&')) = b.name ∧
      s.toList ≠ [] ∧ s.toList.head? ≠ some '&' ∧ s.toList.any Stoi.isspace = false := by
    cases b <;> decide
  obtain ⟨hname, hne, hhead, hspace⟩ := hall _ h
  rw [String.toList_ofList] at hname hne hhead hspace
  refine ⟨hname, hne, hhead, fun c hc => ?_⟩
  exact Bool.eq_false_iff.mpr (List.any_eq_false.mp hspace c hc)

end BuiltIn

/-! ### The two readings of the name -/

/-- What `CreateCommand` compares. -/
def firstWord (cmdLine : String) : List Char :=
  (trim cmdLine.toList).takeWhile fun c => c ≠ ' ' && c ≠ '\n'

/-- The white space and the `&` in front of the first other character. -/
def leading (cmdLine : String) : List Char :=
  cmdLine.toList.takeWhile fun c => Stoi.isspace c || c == '&'

/-- The text from there on up to white space. -/
def nameToken (cmdLine : String) : List Char :=
  (cmdLine.toList.dropWhile fun c => Stoi.isspace c || c == '&').takeWhile (!Stoi.isspace ·)

/-- The text behind that. -/
def afterName (cmdLine : String) : List Char :=
  (cmdLine.toList.dropWhile fun c => Stoi.isspace c || c == '&').dropWhile (!Stoi.isspace ·)

/-- The line names `b` in a way that `CreateCommand` finds. -/
structure PlainName (cmdLine : String) (b : BuiltIn) : Prop where
  leading : '&' ∉ leading cmdLine
  spelt : String.ofList (nameToken cmdLine) ∈ b.spellings
  after : (∀ c ∈ afterName cmdLine, Stoi.isspace c = true) ∨
    ∃ c ∈ (afterName cmdLine).head?, c = ' ' ∨ c = '\n'

/-- The constructor returns, and `CreateCommand` makes the built-in command that `parametrs[0]`
names, and an external command if there is none. -/
def DispatchAgrees (cmdLine : String) : Prop :=
  ∃ cmd, mkCommand cmdLine = some cmd ∧
    (∀ b : BuiltIn, createCommand cmdLine = b.toClass ↔
      cmd.parametrs[0]?.bind Slot.copy = some b.name) ∧
    ((∀ b : BuiltIn, cmd.parametrs[0]?.bind Slot.copy ≠ some b.name) →
      createCommand cmdLine = .external)

/-- `parametrs[0]`, as the constructor leaves it: the first parameter, or no text at all. -/
theorem copy_parametrs_zero {cmdLine : String} {cmd : Command} (h : mkCommand cmdLine = some cmd) :
    cmd.parametrs[0]?.bind Slot.copy = (params cmdLine).head? := by
  cases hps : params cmdLine with
  | nil =>
    unfold mkCommand at h
    rw [hps, parseCommandLine] at h
    cases h
    rfl
  | cons p ps =>
    -- with a first word there is a result only if the slots are enough
    rw [mkCommand_eq (by rw [hps]; exact List.cons_ne_nil p ps), hps] at h
    split at h
    · cases h
      rfl
    · cases h

/-! ### What `CreateCommand` compares -/

section

variable {cmdLine : String}

theorem toList_eq (cmdLine : String) :
    cmdLine.toList = leading cmdLine ++ (nameToken cmdLine ++ afterName cmdLine) := by
  unfold leading nameToken afterName
  rw [List.takeWhile_append_dropWhile, List.takeWhile_append_dropWhile]

theorem isspace_of_mem_nameToken {c : Char} (h : c ∈ nameToken cmdLine) :
    Stoi.isspace c = false := by
  simpa using List.mem_takeWhile_imp h

theorem isspace_of_mem_leading (h : '&' ∉ leading cmdLine) {c : Char}
    (hc : c ∈ leading cmdLine) : Stoi.isspace c = true := by
  have hor := List.mem_takeWhile_imp hc
  simp only [Bool.or_eq_true, beq_iff_eq] at hor
  exact hor.resolve_right fun heq => h (heq ▸ hc)

theorem isspace_of_head?_afterName {c : Char} (h : c ∈ (afterName cmdLine).head?) :
    Stoi.isspace c = true := by
  simpa using head?_dropWhile_eq_false h

/-- Where the white space and the `&` end, a word begins, or the line is over. -/
theorem nameToken_cases (cmdLine : String) :
    (nameToken cmdLine = [] ∧ afterName cmdLine = []) ∨
      ∃ c w, nameToken cmdLine = c :: w ∧ c ≠ '&' := by
  unfold nameToken afterName
  cases hr : cmdLine.toList.dropWhile fun c => Stoi.isspace c || c == '&' with
  | nil => exact Or.inl ⟨rfl, rfl⟩
  | cons c r =>
    have hc := head?_dropWhile_eq_false (show c ∈ (cmdLine.toList.dropWhile
      fun c => Stoi.isspace c || c == '&').head? by rw [hr]; rfl)
    simp only [Bool.or_eq_false_iff, beq_eq_false_iff_ne] at hc
    refine Or.inr ⟨c, r.takeWhile (!Stoi.isspace ·), ?_, hc.2⟩
    rw [List.takeWhile_cons_of_pos (by simp [hc.1])]

/-- With a `&` in front of the name the first word begins with it. -/
theorem firstWord_of_leading (h : '&' ∈ leading cmdLine) :
    (firstWord cmdLine).head? = some '&' := by
  obtain ⟨a, r, hlead, ha⟩ := List.eq_append_cons_of_mem h
  -- in front of the first `&` there is white space only
  have hblank : ∀ c ∈ a, Stoi.isspace c = true := by
    intro c hc
    have hor := List.mem_takeWhile_imp (show c ∈ leading cmdLine by rw [hlead]; simp [hc])
    simp only [Bool.or_eq_true, beq_iff_eq] at hor
    exact hor.resolve_right fun heq => ha (heq ▸ hc)
  have htrim : trim cmdLine.toList =
      ['&'] ++ (r ++ (nameToken cmdLine ++ afterName cmdLine)).rdropWhile Stoi.isspace := by
    rw [toList_eq, hlead, List.append_assoc, List.cons_append]
    -- the `&` is no white space, so that trimming stops there
    have hsign : ∀ c ∈ ['&'], Stoi.isspace c = false := by
      intro c hc
      rw [List.mem_singleton.mp hc]
      decide
    exact strip_word_append hblank (List.cons_ne_nil _ _) hsign _
  unfold firstWord
  rw [htrim, List.singleton_append, List.takeWhile_cons_of_pos (by decide)]
  rfl

/-- Without one it begins with the name, and goes on if neither a blank nor a line feed follows. -/
theorem firstWord_eq (h : '&' ∉ leading cmdLine) (hne : nameToken cmdLine ≠ []) :
    firstWord cmdLine = nameToken cmdLine ++
      ((afterName cmdLine).rdropWhile Stoi.isspace).takeWhile fun c => c ≠ ' ' && c ≠ '\n' := by
  have htrim : trim cmdLine.toList =
      nameToken cmdLine ++ (afterName cmdLine).rdropWhile Stoi.isspace := by
    rw [toList_eq]
    exact strip_word_append (fun c hc => isspace_of_mem_leading h hc) hne
      (fun c hc => isspace_of_mem_nameToken hc) _
  unfold firstWord
  rw [htrim, List.takeWhile_append_of_pos]
  intro c hc
  -- a blank or a line feed would have ended the name
  have hspace := isspace_of_mem_nameToken hc
  simp only [ne_eq, decide_not, Bool.and_eq_true, Bool.not_eq_true', decide_eq_false_iff_not]
  constructor
  · rintro rfl
    exact absurd hspace (by decide)
  · rintro rfl
    exact absurd hspace (by decide)

/-- The first word stops behind the name exactly if a blank, a line feed or nothing follows. -/
theorem takeWhile_afterName_eq_nil_iff :
    (((afterName cmdLine).rdropWhile Stoi.isspace).takeWhile fun c => c ≠ ' ' && c ≠ '\n') = [] ↔
      (∀ c ∈ afterName cmdLine, Stoi.isspace c = true) ∨
        ∃ c ∈ (afterName cmdLine).head?, c = ' ' ∨ c = '\n' := by
  cases hr : (afterName cmdLine).rdropWhile Stoi.isspace with
  | nil => exact iff_of_true rfl (Or.inl (List.rdropWhile_eq_nil_iff.mp hr))
  | cons c r =>
    -- trimming at the end keeps the first character behind the name
    obtain ⟨t, ht⟩ := List.rdropWhile_prefix (p := Stoi.isspace) (l := afterName cmdLine)
    have hhead : (afterName cmdLine).head? = some c := by
      rw [← ht, hr]
      rfl
    have hsome : ¬ ∀ c ∈ afterName cmdLine, Stoi.isspace c = true := by
      rw [← List.rdropWhile_eq_nil_iff, hr]
      exact List.cons_ne_nil c r
    rw [or_iff_right hsome, hhead]
    by_cases hc : c = ' ' ∨ c = '\n'
    · refine iff_of_true ?_ ⟨c, rfl, hc⟩
      rw [List.takeWhile_cons_of_neg]
      rcases hc with rfl | rfl
      · decide
      · decide
    · obtain ⟨hblank, hfeed⟩ := not_or.mp hc
      refine iff_of_false ?_ ?_
      · rw [List.takeWhile_cons_of_pos (by simp [hblank, hfeed])]
        exact List.cons_ne_nil _ _
      · rintro ⟨d, hd, hd'⟩
        obtain rfl : c = d := Option.some.inj hd
        exact hc hd'

/-- A blank line has no first word. -/
theorem firstWord_eq_nil (hlead : '&' ∉ leading cmdLine) (hname : nameToken cmdLine = [])
    (hafter : afterName cmdLine = []) : firstWord cmdLine = [] := by
  -- the whole line is white space
  have hall : ∀ c ∈ cmdLine.toList, Stoi.isspace c = true := by
    rw [toList_eq, hname, hafter]
    simpa using fun c hc => isspace_of_mem_leading hlead hc
  have hblank : trim cmdLine.toList = [] := by
    unfold trim
    rw [List.dropWhile_eq_nil_iff.mpr hall, List.rdropWhile_nil]
  unfold firstWord
  rw [hblank, List.takeWhile_nil]

/-- Where another white space character follows the name, the first word goes on with it. -/
theorem exists_isspace_mem_firstWord (hlead : '&' ∉ leading cmdLine)
    (hname : nameToken cmdLine ≠ [])
    (hafter : ¬ ((∀ c ∈ afterName cmdLine, Stoi.isspace c = true) ∨
      ∃ c ∈ (afterName cmdLine).head?, c = ' ' ∨ c = '\n')) :
    ∃ c ∈ firstWord cmdLine, Stoi.isspace c = true := by
  obtain ⟨c, r, hr⟩ := List.exists_cons_of_ne_nil (mt takeWhile_afterName_eq_nil_iff.mp hafter)
  have hc : c ∈ (afterName cmdLine).head? := by
    obtain ⟨t, ht⟩ := (List.takeWhile_prefix _).trans
      (List.rdropWhile_prefix (p := Stoi.isspace) (l := afterName cmdLine))
    rw [hr] at ht
    rw [← ht]
    rfl
  refine ⟨c, ?_, isspace_of_head?_afterName hc⟩
  rw [firstWord_eq hlead hname, hr]
  exact List.mem_append_right _ List.mem_cons_self

/-- **What `CreateCommand` finds**: the first word is a spelling of `b` exactly if the line names
`b` plainly. -/
theorem firstWord_mem_spellings_iff {b : BuiltIn} :
    String.ofList (firstWord cmdLine) ∈ b.spellings ↔ PlainName cmdLine b := by
  by_cases hlead : '&' ∈ leading cmdLine
  · refine iff_of_false (fun h => ?_) fun h => h.leading hlead
    -- no spelling begins with a `&`
    exact (BuiltIn.of_mem_spellings h).2.2.1 (firstWord_of_leading hlead)
  · rcases nameToken_cases cmdLine with ⟨hnil, hafter⟩ | ⟨d, w, hname, -⟩
    · -- a blank line
      refine iff_of_false (fun h => ?_) fun h => ?_
      · exact (BuiltIn.of_mem_spellings h).2.1 (firstWord_eq_nil hlead hnil hafter)
      · exact (BuiltIn.of_mem_spellings h.spelt).2.1 hnil
    · have hne : nameToken cmdLine ≠ [] := by
        rw [hname]
        exact List.cons_ne_nil d w
      by_cases hafter : (∀ c ∈ afterName cmdLine, Stoi.isspace c = true) ∨
          ∃ c ∈ (afterName cmdLine).head?, c = ' ' ∨ c = '\n'
      · rw [firstWord_eq hlead hne, takeWhile_afterName_eq_nil_iff.mpr hafter, List.append_nil]
        exact ⟨fun h => ⟨hlead, h, hafter⟩, fun h => h.spelt⟩
      · -- no spelling has a white space character
        refine iff_of_false (fun h => ?_) fun h => hafter h.after
        obtain ⟨c, hc, hspace⟩ := exists_isspace_mem_firstWord hlead hne hafter
        rw [(BuiltIn.of_mem_spellings h).2.2.2 c hc] at hspace
        cases hspace

/-- The first parameter is the text of the name without its `&`. -/
theorem params_head? (cmdLine : String) :
    (params cmdLine).head? =
      if nameToken cmdLine = [] then none
      else some (String.ofList ((nameToken cmdLine).filter (· ≠ '&'))) := by
  have hlead : ∀ c ∈ (leading cmdLine).filter (· ≠ '&'), Stoi.isspace c = true := by
    intro c hc
    obtain ⟨hmem, hne⟩ := List.mem_filter.mp hc
    have hor := List.mem_takeWhile_imp hmem
    simp only [Bool.or_eq_true, beq_iff_eq] at hor
    exact hor.resolve_right (by simpa using hne)
  have hafter : ∀ c ∈ ((afterName cmdLine).filter (· ≠ '&')).head?, Stoi.isspace c = true := by
    intro c hc
    cases ht : afterName cmdLine with
    | nil =>
      rw [ht] at hc
      cases hc
    | cons d t =>
      have hd := isspace_of_head?_afterName (show d ∈ (afterName cmdLine).head? by rw [ht]; rfl)
      have hdne : d ≠ '&' := by
        rintro rfl
        exact absurd hd (by decide)
      rw [ht, List.filter_cons_of_pos (by simpa using hdne)] at hc
      obtain rfl : d = c := Option.some.inj hc
      exact hd
  -- what stands before the name has no word, and the name ends at a white space character
  rw [params_eq, toList_eq, List.filter_append, List.filter_append, tokens_of_seps_append hlead]
  rcases nameToken_cases cmdLine with ⟨hnil, hafter'⟩ | ⟨d, w, hname, hd⟩
  · rw [if_pos hnil, hnil, hafter']
    rfl
  · have hne : (nameToken cmdLine).filter (· ≠ '&') ≠ [] := by
      rw [hname, List.filter_cons_of_pos (by simpa using hd)]
      exact List.cons_ne_nil _ _
    rw [if_neg (by rw [hname]; exact List.cons_ne_nil d w), tokens_word_append hne ?_ hafter]
    · rfl
    · intro c hc
      exact isspace_of_mem_nameToken (List.mem_of_mem_filter hc)

theorem PlainName.params_head? {b : BuiltIn} (h : PlainName cmdLine b) :
    (params cmdLine).head? = some b.name := by
  obtain ⟨hname, hne, -, -⟩ := BuiltIn.of_mem_spellings h.spelt
  rw [Shell.params_head?, if_neg hne, hname]

/-- The comparisons of `CreateCommand`, on a line without an operator. -/
theorem createCommand_cases (harrow : '>' ∉ cmdLine.toList) (hpipe : '|' ∉ cmdLine.toList) :
    (∃ b : BuiltIn, String.ofList (firstWord cmdLine) ∈ b.spellings ∧
      createCommand cmdLine = b.toClass) ∨
    ((∀ b : BuiltIn, String.ofList (firstWord cmdLine) ∉ b.spellings) ∧
      createCommand cmdLine = .external) := by
  have harrow' : '>' ∉ trim cmdLine.toList := by rwa [mem_trim_iff (by decide)]
  have hpipe' : '|' ∉ trim cmdLine.toList := by rwa [mem_trim_iff (by decide)]
  unfold firstWord createCommand
  dsimp only
  rw [if_neg harrow', if_neg hpipe']
  generalize String.ofList ((trim cmdLine.toList).takeWhile fun c => c ≠ ' ' && c ≠ '\n') = w
  by_cases h₁ : w = "chprompt" ∨ w = "chprompt&"
  · exact Or.inl ⟨.chprompt, List.mem_pair.mpr h₁, if_pos h₁⟩
  rw [if_neg h₁]
  by_cases h₂ : w = "showpid" ∨ w = "showpid&"
  · exact Or.inl ⟨.showpid, List.mem_pair.mpr h₂, if_pos h₂⟩
  rw [if_neg h₂]
  by_cases h₃ : w = "pwd" ∨ w = "pwd&"
  · exact Or.inl ⟨.pwd, List.mem_pair.mpr h₃, if_pos h₃⟩
  rw [if_neg h₃]
  by_cases h₄ : w = "cd" ∨ w = "cd&"
  · exact Or.inl ⟨.cd, List.mem_pair.mpr h₄, if_pos h₄⟩
  rw [if_neg h₄]
  by_cases h₅ : w = "jobs" ∨ w = "jobs&"
  · exact Or.inl ⟨.jobs, List.mem_pair.mpr h₅, if_pos h₅⟩
  rw [if_neg h₅]
  by_cases h₆ : w = "fg" ∨ w = "fg&"
  · exact Or.inl ⟨.fg, List.mem_pair.mpr h₆, if_pos h₆⟩
  rw [if_neg h₆]
  by_cases h₇ : w = "quit" ∨ w = "quit&"
  · exact Or.inl ⟨.quit, List.mem_pair.mpr h₇, if_pos h₇⟩
  rw [if_neg h₇]
  by_cases h₈ : w = "kill"
  · exact Or.inl ⟨.kill, List.mem_pair.mpr (Or.inl h₈), if_pos h₈⟩
  rw [if_neg h₈]
  refine Or.inr ⟨fun b hb => ?_, rfl⟩
  cases b with
  | chprompt => exact h₁ (List.mem_pair.mp hb)
  | showpid => exact h₂ (List.mem_pair.mp hb)
  | pwd => exact h₃ (List.mem_pair.mp hb)
  | cd => exact h₄ (List.mem_pair.mp hb)
  | jobs => exact h₅ (List.mem_pair.mp hb)
  | fg => exact h₆ (List.mem_pair.mp hb)
  | quit => exact h₇ (List.mem_pair.mp hb)
  | kill => exact h₈ ((List.mem_pair.mp hb).elim id id)

/-- `CreateCommand` makes `b` exactly of the lines that name it plainly. -/
theorem createCommand_eq_toClass_iff (harrow : '>' ∉ cmdLine.toList)
    (hpipe : '|' ∉ cmdLine.toList) (b : BuiltIn) :
    createCommand cmdLine = b.toClass ↔ PlainName cmdLine b := by
  rw [← firstWord_mem_spellings_iff]
  rcases createCommand_cases harrow hpipe with ⟨b', hb', hclass⟩ | ⟨hnone, hclass⟩
  · rw [hclass]
    constructor
    · intro h
      exact BuiltIn.toClass_injective h ▸ hb'
    · intro h
      -- one text spells one name
      have hname := (BuiltIn.of_mem_spellings hb').1.symm.trans (BuiltIn.of_mem_spellings h).1
      rw [BuiltIn.name_injective hname]
  · rw [hclass]
    exact iff_of_false (fun h => b.toClass_ne_external h.symm) (hnone b)

/-- **Dispatch and parsing.** On a line without an operator they agree exactly if the line has
fewer than `COMMAND_MAX_ARGS` words, so that the constructor stays inside its slots, and names
plainly whatever built-in command the text of its name spells, when every `&` is left out. -/
theorem dispatchAgrees_iff (harrow : '>' ∉ cmdLine.toList) (hpipe : '|' ∉ cmdLine.toList) :
    DispatchAgrees cmdLine ↔ (params cmdLine).length < commandMaxArgs ∧
      ∀ b : BuiltIn, String.ofList ((nameToken cmdLine).filter (· ≠ '&')) = b.name →
        PlainName cmdLine b := by
  have hfirst : ∀ b : BuiltIn, (params cmdLine).head? = some b.name ↔
      String.ofList ((nameToken cmdLine).filter (· ≠ '&')) = b.name := by
    intro b
    rw [params_head?]
    split
    · next hnil =>
      rw [hnil]
      apply iff_of_false (by simp)
      cases b <;> decide
    · rw [Option.some.injEq]
  have hiff := createCommand_eq_toClass_iff harrow hpipe
  constructor
  · rintro ⟨cmd, hcmd, hnames, -⟩
    rw [copy_parametrs_zero hcmd] at hnames
    refine ⟨?_, fun b hb => (hiff b).mp ((hnames b).mpr ((hfirst b).mpr hb))⟩
    -- with more words the constructor has no result
    by_contra hlong
    rw [mkCommand_of_long (not_lt.mp hlong)] at hcmd
    cases hcmd
  · rintro ⟨hlen, h⟩
    obtain ⟨rest, hcmd⟩ := exists_mkCommand hlen
    refine ⟨_, hcmd, ?_⟩
    rw [copy_parametrs_zero hcmd]
    refine ⟨fun b => ?_, fun hnone => ?_⟩
    · rw [hiff b]
      exact ⟨fun hp => hp.params_head?, fun hp => h b ((hfirst b).mp hp)⟩
    · rcases createCommand_cases harrow hpipe with ⟨b, -, hclass⟩ | ⟨-, hclass⟩
      · exact absurd ((hiff b).mp hclass).params_head? (hnone b)
      · exact hclass

end

/-- A background sign behind the name, and a blank. -/
theorem dispatchAgrees_iff_signed :
    '>' ∉ "cd& ..".toList ∧ '|' ∉ "cd& ..".toList ∧ DispatchAgrees "cd& .." := by
  refine ⟨by decide, by decide,
    (dispatchAgrees_iff (by decide) (by decide)).mpr ⟨by decide, fun b hb => ?_⟩⟩
  have hname : BuiltIn.cd.name = b.name := by
    rw [← hb]
    decide
  obtain rfl := BuiltIn.name_injective hname
  exact ⟨by decide, by decide, Or.inr ⟨' ', by decide, Or.inl rfl⟩⟩

/-- `kill&` is taken for the name of a program. -/
theorem kill_sign_not_dispatched :
    createCommand "kill&" = .external ∧ (params "kill&").head? = some "kill" ∧
      ¬ DispatchAgrees "kill&" := by
  have hclass : createCommand "kill&" = .external := by decide
  have hfirst : (params "kill&").head? = some "kill" := by decide
  refine ⟨hclass, hfirst, ?_⟩
  rintro ⟨cmd, hcmd, hnames, -⟩
  rw [copy_parametrs_zero hcmd] at hnames
  have hkill := (hnames .kill).mpr hfirst
  rw [hclass] at hkill
  cases hkill

end Shell
end OsHomework
