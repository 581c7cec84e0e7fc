import OsHomework.Shell.Command
import OsHomework.Shell.Jobs

/-!
# `kill`

`KillCommand::execute` reads `parametrs[2]` before it looks at the number of
parameters, and it lets `std::stoi` stop anywhere in it. A call that reads a slot
that was never set, and a line with too many words for the slots, have no result
here (`none`): the source says nothing about what happens then.
-/

namespace OsHomework
namespace Shell

open Stoi

/-! ### `kill` -/

/-- What one `kill` did. -/
structure KillRun where
  /-- The pid and the signal given to `kill(2)`. -/
  sent : Option (Int × Int)
  stdout : List String
  stderr : List String
  deriving DecidableEq, Repr

/-- The answer to most mistakes. -/
def KillRun.invalid : KillRun := ⟨none, [], ["smash error: kill: invalid arguments"]⟩

/-- `std::stoi` on a slot: `none` outside when the slot was never set, `none`
inside when the call throws, which it does for `NULL`. -/
def Slot.stoi : Slot → Option (Option (Int × ℕ))
  | .unset => none
  | .null => some none
  | .param s => some (Stoi.stoi s.toList)

/-- `std::stoi` on a slot, followed by the comparison of `pos` with `strlen`. -/
def Slot.entire : Slot → Option (Option Int)
  | .unset => none
  | .null => some none
  | .param s => some (Stoi.entire s.toList)

/-- The text that `<<` prints of a slot. -/
def Slot.text : Slot → String
  | .param s => s
  | _ => ""

/-- `abs` on an `int`: the smallest one has no counterpart and stays as it is. -/
def abs32 (v : Int) : Int := if v = -2 ^ 31 then v else |v|

/-- The part of `KillCommand::execute` behind the lookup of the job. -/
def killSignal (numOfParams : ℕ) (read : Option Int) (killed : Bool) (job : JobEntry) : KillRun :=
  match read with
  | none => .invalid
  | some negative =>
    if negative ≥ 0 then .invalid
    else
      let signal := abs32 negative
      if numOfParams ≠ 3 ∨ signal < 0 ∨ signal > 31 then .invalid
      else if killed = false then ⟨some (job.jobPid, signal), [], ["smash error: kill failed"]⟩
      else
        ⟨some (job.jobPid, signal), ["signal number " ++ toString signal ++ " was sent to pid " ++
          toString job.jobPid], []⟩

/-- `KillCommand::execute`. `killed` tells whether `kill(2)` succeeds. -/
def killExecute (killed : Bool) (jobs : JobsList) (cmd : Command) : Option KillRun := do
  let slot ← cmd.parametrs[2]?
  match ← slot.stoi with
  | none => return .invalid
  | some (param2, _) =>
    match jobs.getJobById param2 with
    | none => return ⟨none, [], ["smash error: kill: job-id " ++ slot.text ++ " does not exist"]⟩
    | some job =>
      if cmd.numOfParams < 2 then return .invalid
      else
        let read ← cmd.parametrs[1]?.bind Slot.entire
        return killSignal cmd.numOfParams read killed job

/-- A whole line that was dispatched to `KillCommand`. -/
def killLine (killed : Bool) (jobs : JobsList) (cmdLine : String) : Option KillRun :=
  (mkCommand cmdLine).bind (killExecute killed jobs)

/-! ### What a line does, by its number of words -/

section

variable {cmdLine : String} {killed : Bool} {jobs : JobsList}

/-- A line without a second word: `parametrs[2]` lies behind the `NULL`. -/
theorem killLine_of_short (h : (params cmdLine).length < 2) :
    killLine killed jobs cmdLine = none := by
  unfold killLine
  rcases hps : params cmdLine with _ | ⟨p, _ | ⟨p1, ps⟩⟩
  · -- an empty line leaves all the slots unset
    have hcmd : mkCommand cmdLine = some ⟨List.replicate commandMaxArgs .unset, 0⟩ := by
      simp [mkCommand, hps, parseCommandLine]
    rw [hcmd]
    rfl
  · rw [mkCommand_eq (by simp [hps]), hps]
    rfl
  · rw [hps] at h
    simp at h

/-- A line with too many words for the slots. -/
theorem killLine_of_long (h : commandMaxArgs ≤ (params cmdLine).length) :
    killLine killed jobs cmdLine = none := by
  unfold killLine
  rw [mkCommand_of_long h]
  rfl

/-- With two words `parametrs[2]` is the `NULL`, for which `std::stoi` throws. -/
theorem killLine_of_two {p0 p1 : String} (h : params cmdLine = [p0, p1]) :
    killLine killed jobs cmdLine = some .invalid := by
  unfold killLine
  rw [mkCommand_eq (by simp [h]), h]
  rfl

/-- With more, the third is read first. -/
theorem killLine_of_three {p0 p1 p2 : String} {ps : List String}
    (h : params cmdLine = p0 :: p1 :: p2 :: ps) (hlen : (params cmdLine).length < commandMaxArgs) :
    killLine killed jobs cmdLine = some
      (match Stoi.stoi p2.toList with
      | none => .invalid
      | some (param2, _) =>
        match jobs.getJobById param2 with
        | none => ⟨none, [], ["smash error: kill: job-id " ++ p2 ++ " does not exist"]⟩
        | some job =>
          killSignal (params cmdLine).length (Stoi.entire p1.toList) killed job) := by
  unfold killLine
  rw [mkCommand_eq (by simp [h]), if_pos hlen, h]
  unfold killExecute
  simp only [Option.bind_some, List.map_cons, List.cons_append, List.getElem?_cons_succ,
    List.getElem?_cons_zero, Slot.stoi, Slot.entire, Option.bind_eq_bind, Option.pure_def]
  cases Stoi.stoi p2.toList with
  | none => rfl
  | some r =>
    dsimp only
    cases jobs.getJobById r.1 with
    | none => rfl
    | some job => rfl

end

/-! ### What is sent -/

/-- The grammar of `kill`: three words, a signal `-n` and the id of a listed job. -/
def KillGrammar (ps : List String) (jobs : JobsList) (pid signal : Int) : Prop :=
  ∃ p0 p1 p2 j job, ps = [p0, p1, p2] ∧ Numeral p1.toList (-signal) ∧ 1 ≤ signal ∧ signal ≤ 31 ∧
    Numeral p2.toList j ∧ jobs.getJobById j = some job ∧ job.jobPid = pid

/-- `kill` accepts exactly its grammar: it sends the signal the line names to the
pid of the job it names, and reports an error without a signal otherwise. -/
structure KillExact (ps : List String) (jobs : JobsList) (run : Option KillRun) : Prop where
  sends : ∀ pid signal, (∃ r, run = some r ∧ r.sent = some (pid, signal)) ↔
    KillGrammar ps jobs pid signal
  refuses : (¬ ∃ pid signal, KillGrammar ps jobs pid signal) →
    ∃ r, run = some r ∧ r.sent = none ∧ r.stderr ≠ []

/-- The line is cut off somewhere in its job id, and would be in the grammar
without the rest. -/
def CutJobId (ps : List String) (jobs : JobsList) : Prop :=
  ∃ p0 p1 p2 signal j pos, ps = [p0, p1, p2] ∧ Numeral p1.toList (-signal) ∧ 1 ≤ signal ∧
    signal ≤ 31 ∧ Stoi.stoi p2.toList = some (j, pos) ∧ pos ≠ p2.toList.length ∧
    (jobs.getJobById j).isSome = true

/-- The signal that is sent, when one is. -/
theorem killSignal_sent {n : ℕ} {read : Option Int} {killed : Bool} {job : JobEntry}
    {pid signal : Int} :
    (killSignal n read killed job).sent = some (pid, signal) ↔
      n = 3 ∧ read = some (-signal) ∧ 1 ≤ signal ∧ signal ≤ 31 ∧ job.jobPid = pid := by
  unfold killSignal
  cases read with
  | none => simp [KillRun.invalid]
  | some v =>
    dsimp only
    by_cases hv : v ≥ 0
    · -- a signal without its minus sign
      rw [if_pos hv]
      apply iff_of_false (by simp [KillRun.invalid])
      rintro ⟨-, hread, hpos, -⟩
      have := Option.some.inj hread
      omega
    · rw [if_neg hv]
      by_cases hbad : n ≠ 3 ∨ abs32 v < 0 ∨ abs32 v > 31
      · rw [if_pos hbad]
        apply iff_of_false (by simp [KillRun.invalid])
        rintro ⟨hn, hread, hpos, hle, -⟩
        obtain rfl := Option.some.inj hread
        have habs : abs32 (-signal) = signal := by
          rw [abs32, if_neg (by omega), abs_neg, abs_of_pos (by omega)]
        omega
      · rw [if_neg hbad]
        -- a negative `int` whose `abs` is not negative is not the smallest one
        have habs : abs32 v = -v := by
          have hne : v ≠ -2 ^ 31 := by
            rintro rfl
            exact hbad (Or.inr (Or.inl (by decide)))
          rw [abs32, if_neg hne, abs_of_neg (not_le.mp hv)]
        have hsent : (if killed = false then (⟨some (job.jobPid, abs32 v), [],
            ["smash error: kill failed"]⟩ : KillRun) else
            ⟨some (job.jobPid, abs32 v), ["signal number " ++ toString (abs32 v) ++
              " was sent to pid " ++ toString job.jobPid], []⟩).sent =
            some (job.jobPid, abs32 v) := by
          split <;> rfl
        rw [hsent, habs, Option.some.injEq, Prod.mk.injEq, Option.some.injEq]
        constructor
        · rintro ⟨hpid, hsig⟩
          exact ⟨by omega, by omega, by omega, by omega, hpid⟩
        · rintro ⟨-, hread, -, -, hpid⟩
          exact ⟨hpid, by omega⟩

/-- Without a signal there is an error. -/
theorem killSignal_refused {n : ℕ} {read : Option Int} {killed : Bool} {job : JobEntry}
    (h : (killSignal n read killed job).sent = none) :
    (killSignal n read killed job).stderr ≠ [] := by
  unfold killSignal at h ⊢
  cases read with
  | none => simp [KillRun.invalid]
  | some v =>
    dsimp only at h ⊢
    split at h
    · next hv =>
      rw [if_pos hv]
      simp [KillRun.invalid]
    · next hv =>
      rw [if_neg hv]
      split at h
      · next hbad =>
        rw [if_pos hbad]
        simp [KillRun.invalid]
      · -- both ways out of the call of `kill(2)` have sent a signal
        split at h <;> cases h

/-- A call without a result is not what it should be: it neither sends nor refuses. -/
theorem not_killExact_none {ps : List String} {jobs : JobsList} : ¬ KillExact ps jobs none := by
  intro h
  have hnone : ¬ ∃ pid signal, KillGrammar ps jobs pid signal := by
    rintro ⟨pid, signal, hg⟩
    obtain ⟨r, hr, -⟩ := (h.sends pid signal).mpr hg
    cases hr
  obtain ⟨r, hr, -⟩ := h.refuses hnone
  cases hr

/-- Of a call that reports an error whenever it sends nothing, only the signals matter. -/
theorem killExact_some_iff {ps : List String} {jobs : JobsList} {r : KillRun}
    (herr : r.sent = none → r.stderr ≠ []) :
    KillExact ps jobs (some r) ↔
      ∀ pid signal, r.sent = some (pid, signal) ↔ KillGrammar ps jobs pid signal := by
  have hsome : ∀ pid signal, (∃ r', some r = some r' ∧ r'.sent = some (pid, signal)) ↔
      r.sent = some (pid, signal) := by
    intro pid signal
    constructor
    · rintro ⟨r', hr, hsent⟩
      rwa [Option.some.inj hr]
    · intro hsent
      exact ⟨r, rfl, hsent⟩
  constructor
  · intro h pid signal
    rw [← h.sends, hsome]
  · intro h
    refine ⟨fun pid signal => (hsome pid signal).trans (h pid signal), fun hnone => ?_⟩
    -- what is sent would be in the grammar
    have hsent : r.sent = none := by
      cases hs : r.sent with
      | none => rfl
      | some p => exact absurd ⟨p.1, p.2, (h p.1 p.2).mp hs⟩ hnone
    exact ⟨r, rfl, hsent, herr hsent⟩

/-! The grammar and the cut job ids, on a line with three words or more. -/

theorem killGrammar_cons_iff {p0 p1 p2 : String} {ps : List String} {jobs : JobsList}
    {pid signal : Int} :
    KillGrammar (p0 :: p1 :: p2 :: ps) jobs pid signal ↔
      ps = [] ∧ Numeral p1.toList (-signal) ∧ 1 ≤ signal ∧ signal ≤ 31 ∧
        ∃ j job, Numeral p2.toList j ∧ jobs.getJobById j = some job ∧ job.jobPid = pid := by
  constructor
  · rintro ⟨q0, q1, q2, j, job, hps, hsig, hge, hle, hnum, hjob, hpid⟩
    obtain ⟨rfl, rfl, rfl, hnil⟩ : p0 = q0 ∧ p1 = q1 ∧ p2 = q2 ∧ ps = [] := by simpa using hps
    exact ⟨hnil, hsig, hge, hle, j, job, hnum, hjob, hpid⟩
  · rintro ⟨rfl, hsig, hge, hle, j, job, hnum, hjob, hpid⟩
    exact ⟨p0, p1, p2, j, job, rfl, hsig, hge, hle, hnum, hjob, hpid⟩

theorem cutJobId_cons_iff {p0 p1 p2 : String} {ps : List String} {jobs : JobsList} :
    CutJobId (p0 :: p1 :: p2 :: ps) jobs ↔
      ps = [] ∧ ∃ signal j pos, Numeral p1.toList (-signal) ∧ 1 ≤ signal ∧ signal ≤ 31 ∧
        Stoi.stoi p2.toList = some (j, pos) ∧ pos ≠ p2.toList.length ∧
        (jobs.getJobById j).isSome = true := by
  constructor
  · rintro ⟨q0, q1, q2, signal, j, pos, hps, hsig, hge, hle, hread, hpos, hjob⟩
    obtain ⟨rfl, rfl, rfl, hnil⟩ : p0 = q0 ∧ p1 = q1 ∧ p2 = q2 ∧ ps = [] := by simpa using hps
    exact ⟨hnil, signal, j, pos, hsig, hge, hle, hread, hpos, hjob⟩
  · rintro ⟨rfl, signal, j, pos, hsig, hge, hle, hread, hpos, hjob⟩
    exact ⟨p0, p1, p2, signal, j, pos, rfl, hsig, hge, hle, hread, hpos, hjob⟩

/-- A job id that `std::stoi` reads as no listed job is not in the grammar. -/
theorem killExact_of_unlisted {p0 p1 p2 : String} {ps : List String} {jobs : JobsList}
    {r : KillRun} (hsent : r.sent = none) (herr : r.stderr ≠ [])
    (h : ∀ j pos, Stoi.stoi p2.toList = some (j, pos) → jobs.getJobById j = none) :
    KillExact (p0 :: p1 :: p2 :: ps) jobs (some r) ∧ ¬ CutJobId (p0 :: p1 :: p2 :: ps) jobs := by
  constructor
  · rw [killExact_some_iff fun _ => herr]
    intro pid signal
    rw [hsent, killGrammar_cons_iff]
    apply iff_of_false (by simp)
    rintro ⟨-, -, -, -, j, job, hnum, hjob, -⟩
    -- a numeral is read to its end, so the job would be listed
    rw [h j _ ((stoi_entire_iff _ _).mpr hnum)] at hjob
    cases hjob
  · rw [cutJobId_cons_iff]
    rintro ⟨-, signal, j, pos, -, -, -, hread, -, hjob⟩
    rw [h j pos hread] at hjob
    cases hjob

/-- A job id that `std::stoi` reads to its end, as a listed job: the line is in the grammar as far
as the job goes, and is not cut. -/
theorem killExact_of_entire {p0 p1 p2 : String} {ps : List String} {jobs : JobsList}
    {killed : Bool} {j : Int} {job : JobEntry}
    (hread : Stoi.stoi p2.toList = some (j, p2.toList.length))
    (hjob : jobs.getJobById j = some job) :
    KillExact (p0 :: p1 :: p2 :: ps) jobs
        (some (killSignal (p0 :: p1 :: p2 :: ps).length (Stoi.entire p1.toList) killed job)) ∧
      ¬ CutJobId (p0 :: p1 :: p2 :: ps) jobs := by
  have hthree : (p0 :: p1 :: p2 :: ps).length = 3 ↔ ps = [] := by simp
  have hnum : Numeral p2.toList j := (stoi_entire_iff _ _).mp hread
  constructor
  · rw [killExact_some_iff killSignal_refused]
    intro pid signal
    rw [killSignal_sent, hthree, entire_eq_some_iff, killGrammar_cons_iff]
    constructor
    · rintro ⟨hnil, hsig, hge, hle, hpid⟩
      exact ⟨hnil, hsig, hge, hle, j, job, hnum, hjob, hpid⟩
    · rintro ⟨hnil, hsig, hge, hle, j', job', hnum', hjob', hpid⟩
      -- the text names one number, and the number one job
      obtain rfl : j' = j := hnum'.unique hnum
      obtain rfl : job = job' := Option.some.inj (hjob.symm.trans hjob')
      exact ⟨hnil, hsig, hge, hle, hpid⟩
  · rw [cutJobId_cons_iff]
    rintro ⟨-, signal, j', pos, -, -, -, hread', hne, -⟩
    rw [hread, Option.some.injEq, Prod.mk.injEq] at hread'
    exact hne hread'.2.symm

/-- A job id that `std::stoi` reads as a listed job, with more behind it: the line is not in the
grammar whatever it sends. -/
theorem killExact_of_cut_iff {p0 p1 p2 : String} {ps : List String} {jobs : JobsList}
    {killed : Bool} {j : Int} {pos : ℕ} {job : JobEntry}
    (hread : Stoi.stoi p2.toList = some (j, pos)) (hpos : pos ≠ p2.toList.length)
    (hjob : jobs.getJobById j = some job) :
    KillExact (p0 :: p1 :: p2 :: ps) jobs
        (some (killSignal (p0 :: p1 :: p2 :: ps).length (Stoi.entire p1.toList) killed job)) ↔
      ¬ CutJobId (p0 :: p1 :: p2 :: ps) jobs := by
  have hthree : (p0 :: p1 :: p2 :: ps).length = 3 ↔ ps = [] := by simp
  have hno : ∀ pid signal, ¬ KillGrammar (p0 :: p1 :: p2 :: ps) jobs pid signal := by
    intro pid signal
    rw [killGrammar_cons_iff]
    rintro ⟨-, -, -, -, j', job', hnum, -, -⟩
    -- a numeral would have been read to its end
    have heq := hread.symm.trans ((stoi_entire_iff _ _).mpr hnum)
    rw [Option.some.injEq, Prod.mk.injEq] at heq
    exact hpos heq.2
  rw [killExact_some_iff killSignal_refused, cutJobId_cons_iff]
  constructor
  · rintro h ⟨hnil, signal, j', pos', hsig, hge, hle, -⟩
    refine hno job.jobPid signal ((h job.jobPid signal).mp (killSignal_sent.mpr ?_))
    exact ⟨hthree.mpr hnil, (entire_eq_some_iff _ _).mpr hsig, hge, hle, rfl⟩
  · intro hcut pid signal
    refine iff_of_false (fun hsent => hcut ?_) (hno pid signal)
    obtain ⟨hn, hsig, hge, hle, -⟩ := killSignal_sent.mp hsent
    have hlisted : (jobs.getJobById j).isSome = true := by rw [hjob]; rfl
    exact ⟨hthree.mp hn, signal, j, pos, (entire_eq_some_iff _ _).mp hsig, hge, hle, hread, hpos,
      hlisted⟩

/-- A line of three words or more. -/
theorem killExact_of_three_iff {cmdLine p0 p1 p2 : String} {ps : List String}
    (h : params cmdLine = p0 :: p1 :: p2 :: ps) (hlen : (params cmdLine).length < commandMaxArgs)
    (jobs : JobsList) (killed : Bool) :
    KillExact (params cmdLine) jobs (killLine killed jobs cmdLine) ↔
      ¬ CutJobId (params cmdLine) jobs := by
  rw [killLine_of_three h hlen, h]
  cases hread : Stoi.stoi p2.toList with
  | none =>
    -- `std::stoi` throws
    have hboth := @killExact_of_unlisted p0 p1 p2 ps jobs .invalid rfl (by simp [KillRun.invalid])
      (by simp [hread])
    exact iff_of_true hboth.1 hboth.2
  | some r =>
    obtain ⟨j, pos⟩ := r
    dsimp only
    cases hjob : jobs.getJobById j with
    | none =>
      -- there is no such job
      have hboth := @killExact_of_unlisted p0 p1 p2 ps jobs
        ⟨none, [], ["smash error: kill: job-id " ++ p2 ++ " does not exist"]⟩ rfl
        (List.cons_ne_nil _ _) (by
          intro j' pos' hread'
          rw [hread, Option.some.injEq, Prod.mk.injEq] at hread'
          rw [← hread'.1, hjob])
      exact iff_of_true hboth.1 hboth.2
    | some job =>
      by_cases hpos : pos = p2.toList.length
      · have hboth := @killExact_of_entire p0 p1 p2 ps jobs killed j job (hpos ▸ hread) hjob
        exact iff_of_true hboth.1 hboth.2
      · exact killExact_of_cut_iff hread hpos hjob

/-- **`kill` and its grammar.** `kill` accepts exactly its grammar on a line of two words or more
that fit the slots, unless `std::stoi` stops inside the job id of a line that would be in the
grammar without the rest. -/
theorem kill_exact_iff (cmdLine : String) (jobs : JobsList) (killed : Bool) :
    KillExact (params cmdLine) jobs (killLine killed jobs cmdLine) ↔
      2 ≤ (params cmdLine).length ∧ (params cmdLine).length < commandMaxArgs ∧
        ¬ CutJobId (params cmdLine) jobs := by
  by_cases hshort : (params cmdLine).length < 2
  · -- `parametrs[2]` is read behind the `NULL`
    rw [killLine_of_short hshort]
    exact iff_of_false not_killExact_none fun h => absurd h.1 (not_le.mpr hshort)
  · by_cases hlong : (params cmdLine).length < commandMaxArgs
    · rw [and_iff_right (not_lt.mp hshort), and_iff_right hlong]
      rcases hps : params cmdLine with _ | ⟨p0, _ | ⟨p1, _ | ⟨p2, ps⟩⟩⟩
      · simp [hps] at hshort
      · simp [hps] at hshort
      · -- `invalid arguments`, and the grammar has three words
        rw [killLine_of_two hps]
        refine iff_of_true ?_ ?_
        · refine (killExact_some_iff fun _ => by simp [KillRun.invalid]).mpr fun pid signal => ?_
          apply iff_of_false (by simp [KillRun.invalid])
          rintro ⟨q0, q1, q2, j, job, hps', -⟩
          simp at hps'
        · rintro ⟨q0, q1, q2, signal, j, pos, hps', -⟩
          simp at hps'
      · rw [← hps]
        exact killExact_of_three_iff hps hlong jobs killed
    · rw [killLine_of_long (not_lt.mp hlong)]
      exact iff_of_false not_killExact_none fun h => hlong h.2.1

/-- One job in the background. -/
def oneJob : JobsList := ⟨[⟨"sleep 9&", 4242, 1, 0⟩], 2, 1⟩

/-- `kill -9 1x` is dispatched to `kill` and kills the job with the id `1`. -/
theorem kill_accepts_cut_jobId :
    createCommand "kill -9 1x" = .kill ∧
    killLine true oneJob "kill -9 1x" =
      some ⟨some (4242, 9), ["signal number 9 was sent to pid 4242"], []⟩ ∧
    ¬ KillExact (params "kill -9 1x") oneJob (killLine true oneJob "kill -9 1x") := by
  have hps : params "kill -9 1x" = ["kill", "-9", "1x"] := by decide
  refine ⟨by decide, by decide, fun h => ?_⟩
  apply (killExact_of_three_iff hps (by rw [hps]; decide) oneJob true).mp h
  exact ⟨"kill", "-9", "1x", 9, 1, 1, hps, (stoi_entire_iff _ _).mp
    (by decide), by decide, by decide, by decide, by decide, by decide⟩

end Shell
end OsHomework
