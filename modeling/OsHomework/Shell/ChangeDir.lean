import OsHomework.Lib.Transition
import Mathlib.Tactic.Common

/-!
# `cd`

`ChangeDirCommand::execute` over the current directory of the shell process and
the string `last_working_directory`, which holds the previous one. That there is
no previous directory yet is written as an ordinary string into the same field.

The directory is captured with `getcwd` before `chdir` is called, and written to
the field after it has succeeded; every call may be refused, and the answers are
part of the step. Of the file system two things are assumed: what `getcwd` returns
is an absolute path, and a `chdir` to what it has returned for a directory leads
to this directory, if it succeeds. A path that was typed may lead anywhere.
-/

namespace OsHomework
namespace Shell
namespace ChangeDir

variable {Dir : Type}

/-- The current directory, and the field of the shell. -/
structure State (Dir : Type) where
  cwd : Dir
  lastWorkingDirectory : String
  deriving DecidableEq

/-- The answers of the calls of one `cd`. -/
structure Answers (Dir : Type) where
  getcwdBuff : Bool
  malloc : Bool
  getcwdBuffer : Bool
  /-- The directory that `chdir` has changed to, `none` for `-1`. -/
  chdir : Option Dir

/-- What the constructor of `SmallShell` writes to `last_working_directory`. -/
def notSet : String := "noot a valid directory girls"

/-- The part that both kinds of `cd` have: the directory is captured twice, and `chdir` called. -/
def changeTo (path : Dir → String) (a : Answers Dir) (s : State Dir) : State Dir × List String :=
  if a.getcwdBuff = false then (s, ["smash error: getcwd failed"])
  else if a.malloc = false then (s, ["smash error: malloc failed"])
  else if a.getcwdBuffer = false then (s, ["smash error: getcwd failed"])
  else
    match a.chdir with
    | none => (s, ["smash error: chdir failed"])
    | some d => (⟨d, path s.cwd⟩, [])

/-- `ChangeDirCommand::execute` on the parameters behind `cd`: the state it leaves and what it
reported. `path` is what `getcwd` writes for a directory. -/
def execute (path : Dir → String) (args : List String) (a : Answers Dir) (s : State Dir) :
    State Dir × List String :=
  match args with
  | [] => (s, [])
  | [arg] =>
    if arg = "-" then
      if s.lastWorkingDirectory = notSet then (s, ["smash error: cd: OLDPWD not set"])
      else changeTo path a s
    else changeTo path a s
  | _ => (s, ["smash error: cd: too many arguments"])

/-- The string that `chdir` is called with. -/
def target (arg : String) (s : State Dir) : String :=
  if arg = "-" then s.lastWorkingDirectory else arg

/-- The answer of `chdir` is possible: the path of a directory leads to this directory. -/
def Answers.Possible (path : Dir → String) (a : Answers Dir) (args : List String) (s : State Dir) :
    Prop :=
  ∀ arg d d', args = [arg] → target arg s = path d → a.chdir = some d' → d' = d

/-- A `cd` with one argument that reported nothing. -/
def Succeeds (path : Dir → String) (args : List String) (a : Answers Dir) (s : State Dir) : Prop :=
  args.length = 1 ∧ (execute path args a s).2 = []

instance (path : Dir → String) (args : List String) (a : Answers Dir) (s : State Dir) :
    Decidable (Succeeds path args a s) := inferInstanceAs (Decidable (_ ∧ _))

/-- The shell, with a note whether some `cd` has succeeded. -/
structure Session (Dir : Type) where
  state : State Dir
  succeeded : Bool

/-- The sequences of `cd` commands. -/
def session (path : Dir → String) : System (Session Dir) (List String × Answers Dir) where
  init s := s.state.lastWorkingDirectory = notSet ∧ s.succeeded = false
  step s l t := l.2.Possible path l.1 s.state ∧
    t.state = (execute path l.1 l.2 s.state).1 ∧
    t.succeeded = (s.succeeded || decide (Succeeds path l.1 l.2 s.state))

/-! ### One command -/

section

variable {path : Dir → String} {args : List String} {a : Answers Dir} {s : State Dir}

/-- Either nothing changes, or `chdir` has succeeded and the directory before it is kept. -/
theorem changeTo_cases (path : Dir → String) (a : Answers Dir) (s : State Dir) :
    ((changeTo path a s).1 = s ∧ (changeTo path a s).2 ≠ []) ∨
      ∃ d, a.chdir = some d ∧ changeTo path a s = (⟨d, path s.cwd⟩, []) := by
  unfold changeTo
  split_ifs
  · exact Or.inl ⟨rfl, List.cons_ne_nil _ _⟩
  · exact Or.inl ⟨rfl, List.cons_ne_nil _ _⟩
  · exact Or.inl ⟨rfl, List.cons_ne_nil _ _⟩
  · -- all three calls before `chdir` have succeeded
    cases h : a.chdir with
    | none => exact Or.inl ⟨rfl, List.cons_ne_nil _ _⟩
    | some d => exact Or.inr ⟨d, rfl, rfl⟩

/-- **What a `cd` can do.** -/
theorem execute_cases (path : Dir → String) (args : List String) (a : Answers Dir) (s : State Dir) :
    (¬ Succeeds path args a s ∧ (execute path args a s).1 = s) ∨
      ∃ arg d, args = [arg] ∧ (arg = "-" → s.lastWorkingDirectory ≠ notSet) ∧ a.chdir = some d ∧
        Succeeds path args a s ∧ (execute path args a s).1 = ⟨d, path s.cwd⟩ := by
  unfold Succeeds
  match args with
  | [] => exact Or.inl ⟨fun h => absurd h.1 (by decide), rfl⟩
  | [arg] =>
    by_cases hset : arg = "-" ∧ s.lastWorkingDirectory = notSet
    · apply Or.inl
      simp [execute, hset.1, hset.2]
    · -- `cd -` with a directory to go back to does what `cd` with its path does
      have hexec : execute path [arg] a s = changeTo path a s := by
        unfold execute
        dsimp only
        split
        · next harg => exact if_neg fun hlast => hset ⟨harg, hlast⟩
        · rfl
      rw [hexec]
      rcases changeTo_cases path a s with ⟨hsame, herr⟩ | ⟨d, hd, heq⟩
      · exact Or.inl ⟨fun h => herr h.2, hsame⟩
      · refine Or.inr ⟨arg, d, rfl, fun harg hlast => hset ⟨harg, hlast⟩, hd, ?_, ?_⟩
        · exact ⟨rfl, by rw [heq]⟩
        · rw [heq]
  | arg :: arg' :: rest => exact Or.inl ⟨fun h => absurd h.1 (by simp), rfl⟩

/-- `cd -` reports the missing directory exactly if the field says so. -/
theorem oldpwd_reported_iff :
    "smash error: cd: OLDPWD not set" ∈ (execute path ["-"] a s).2 ↔
      s.lastWorkingDirectory = notSet := by
  unfold execute
  dsimp only
  rw [if_pos rfl]
  split
  · next h => exact iff_of_true List.mem_cons_self h
  · next h =>
    refine iff_of_false ?_ h
    unfold changeTo
    split_ifs
    · simp
    · simp
    · simp
    · cases a.chdir with
      | none => simp
      | some d => exact List.not_mem_nil

end

/-! ### Sequences of commands -/

section

variable {path : Dir → String} {s s₁ s₂ : Session Dir} {a a₁ a₂ : Answers Dir}

/-- The field holds the path of a directory from the first success on, and `notSet` before. -/
structure Inv (path : Dir → String) (s : Session Dir) : Prop where
  unset : s.succeeded = false → s.state.lastWorkingDirectory = notSet
  set : s.succeeded = true → ∃ d, s.state.lastWorkingDirectory = path d

theorem Inv.of_reachable (h : (session path).Reachable s) : Inv path s := by
  refine h.invariant ?_ ?_
  · rintro s ⟨hlast, hnone⟩
    exact ⟨fun _ => hlast, fun h => absurd (hnone.symm.trans h) Bool.noConfusion⟩
  · rintro s ⟨args, a⟩ t hs ⟨-, hstate, hsucc⟩
    dsimp only at hstate hsucc
    rcases execute_cases path args a s.state with ⟨hno, hsame⟩ | ⟨arg, d, -, -, -, hyes, heq⟩
    · -- nothing has changed
      rw [decide_eq_false hno, Bool.or_false] at hsucc
      rw [hsame] at hstate
      constructor
      · rw [hsucc, hstate]
        exact hs.unset
      · rw [hsucc, hstate]
        exact hs.set
    · rw [decide_eq_true hyes, Bool.or_true] at hsucc
      rw [heq] at hstate
      -- the field holds what `getcwd` has returned
      refine ⟨fun h => absurd (hsucc.symm.trans h) Bool.noConfusion, fun _ => ?_⟩
      exact ⟨s.state.cwd, by rw [hstate]⟩

/-- A successful `cd -` swaps the two directories. -/
theorem swap_of_succeeds {d : Dir} (hlast : s.state.lastWorkingDirectory = path d)
    (hstep : (session path).step s (["-"], a) s₁) (hsucc : Succeeds path ["-"] a s.state) :
    s₁.state = ⟨d, path s.state.cwd⟩ := by
  obtain ⟨hpossible, hstate, -⟩ := hstep
  dsimp only at hstate
  rcases execute_cases path ["-"] a s.state with ⟨hno, -⟩ | ⟨arg, d', harg, -, hd', -, heq⟩
  · exact absurd hsucc hno
  · -- `chdir` has gone to the directory whose path the field holds
    obtain rfl : d' = d := hpossible "-" d d' rfl (by rw [target, if_pos rfl, hlast]) hd'
    rw [hstate, heq]

end

/-- **`cd` as a machine with two directories.** If what `getcwd` returns is absolute, then in every
state that a sequence of `cd` commands reaches: a command that does not succeed changes nothing, one
that does keeps the directory before it, `cd -` reports a missing directory exactly if none has
succeeded yet, and two successful `cd -` in a row restore both directories. -/
theorem cd_pair (path : Dir → String) (habsolute : ∀ d, (path d).toList.head? = some '/')
    {s : Session Dir} (h : (session path).Reachable s) :
    (∀ args a t, (session path).step s (args, a) t → ¬ Succeeds path args a s.state →
      t.state = s.state) ∧
    (∀ args a t, (session path).step s (args, a) t → Succeeds path args a s.state →
      t.state.lastWorkingDirectory = path s.state.cwd) ∧
    (∀ a, "smash error: cd: OLDPWD not set" ∈ (execute path ["-"] a s.state).2 ↔
      s.succeeded = false) ∧
    (∀ a₁ a₂ s₁ s₂, (session path).step s (["-"], a₁) s₁ → Succeeds path ["-"] a₁ s.state →
      (session path).step s₁ (["-"], a₂) s₂ → Succeeds path ["-"] a₂ s₁.state →
      s₂.state = s.state) := by
  have hinv := Inv.of_reachable h
  -- no path is the string that stands for none
  have hpath : ∀ d, path d ≠ notSet := by
    intro d heq
    have hhead := habsolute d
    rw [heq] at hhead
    exact absurd hhead (by decide)
  have hset : s.state.lastWorkingDirectory = notSet ↔ s.succeeded = false := by
    refine ⟨fun hlast => ?_, hinv.unset⟩
    by_contra hne
    -- a `cd` that has succeeded leaves a path
    obtain ⟨d, hd⟩ := hinv.set (eq_true_of_ne_false hne)
    exact hpath d (hd.symm.trans hlast)
  refine ⟨?_, ?_, fun a => oldpwd_reported_iff.trans hset, ?_⟩
  · rintro args a t ⟨-, hstate, -⟩ hno
    rcases execute_cases path args a s.state with ⟨-, hsame⟩ | ⟨-, -, -, -, -, hyes, -⟩
    · exact hstate.trans hsame
    · exact absurd hyes hno
  · rintro args a t ⟨-, hstate, -⟩ hyes
    rcases execute_cases path args a s.state with ⟨hno, -⟩ | ⟨arg, d, -, -, -, -, heq⟩
    · exact absurd hyes hno
    · rw [show t.state = _ from hstate.trans heq]
  · intro a₁ a₂ s₁ s₂ hstep₁ hyes₁ hstep₂ hyes₂
    -- the first `cd -` has found a directory to go back to
    have hne : s.state.lastWorkingDirectory ≠ notSet := by
      rcases execute_cases path ["-"] a₁ s.state with ⟨hno, -⟩ | ⟨arg, d, harg, hlast, -⟩
      · exact absurd hyes₁ hno
      · exact hlast (List.singleton_inj.mp harg).symm
    obtain ⟨d, hd⟩ := hinv.set (eq_true_of_ne_false (mt hset.mpr hne))
    have hswap₁ := swap_of_succeeds hd hstep₁ hyes₁
    -- the second one goes back to where the first one started
    have hlast₁ : s₁.state.lastWorkingDirectory = path s.state.cwd := by rw [hswap₁]
    have hswap₂ := swap_of_succeeds hlast₁ hstep₂ hyes₂
    rw [hswap₂, hswap₁, ← hd]

/-- A file system with two directories. -/
def twoDirs (d : Bool) : String := if d then "/b" else "/a"

/-- All calls succeed, and `chdir` leads to `d`. -/
def granted (d : Bool) : Answers Bool := ⟨true, true, true, some d⟩

/-- A shell that has changed from `/a` to `/b`. -/
def moved : Session Bool := ⟨⟨true, "/a"⟩, true⟩

theorem possible_granted (d : Bool) (args : List String) (s : State Bool)
    (h : ∀ arg, args = [arg] → target arg s = twoDirs d) :
    (granted d).Possible twoDirs args s := by
  intro arg d' d'' harg htarget hd
  obtain rfl : d = d'' := Option.some.inj hd
  have heq := (h arg harg).symm.trans htarget
  revert heq
  cases d <;> cases d' <;> decide

theorem cd_pair_moved :
    (session twoDirs).Reachable moved ∧
      (session twoDirs).step moved (["-"], granted false) ⟨⟨false, "/b"⟩, true⟩ ∧
      (session twoDirs).step ⟨⟨false, "/b"⟩, true⟩ (["-"], granted true)
        ⟨(execute twoDirs ["-"] (granted true) ⟨false, "/b"⟩).1, true⟩ ∧
      (execute twoDirs ["-"] (granted true) ⟨false, "/b"⟩).1 = moved.state := by
  have hreach : (session twoDirs).Reachable moved := by
    have hinit : (session twoDirs).Reachable ⟨⟨false, notSet⟩, false⟩ :=
      System.Reachable.of_init ⟨rfl, rfl⟩
    refine hinit.tail (l := (["/b"], granted true))
      ⟨possible_granted true _ _ ?_, by decide, by decide⟩
    rintro arg harg
    obtain rfl := List.singleton_inj.mp harg
    decide
  have hback : (session twoDirs).step moved (["-"], granted false) ⟨⟨false, "/b"⟩, true⟩ := by
    refine ⟨possible_granted false _ _ ?_, by decide, by decide⟩
    rintro arg harg
    obtain rfl := List.singleton_inj.mp harg
    decide
  have hforth : (session twoDirs).step ⟨⟨false, "/b"⟩, true⟩ (["-"], granted true)
      ⟨(execute twoDirs ["-"] (granted true) ⟨false, "/b"⟩).1, true⟩ := by
    refine ⟨possible_granted true _ _ ?_, rfl, by decide⟩
    rintro arg harg
    obtain rfl := List.singleton_inj.mp harg
    decide
  refine ⟨hreach, hback, hforth, ?_⟩
  exact (cd_pair twoDirs (by decide) hreach).2.2.2 _ _ _ _ hback (by decide) hforth (by decide)

end ChangeDir
end Shell
end OsHomework
