import OsHomework.Shell.Command

/-!
# The background sign

A `&` behind the last word of a line asks for a command in the background. The
staff's `_removeBackgroundSign` would take it off; the constructor of `Command`
has that call commented out and erases every `&` of the line. So the program gets
the words of the line unchanged exactly when the line has no other `&`
(`passesWords_iff`).

`argv` is filled from the slots of the command, one copy for each parameter, and
ends with a `NULL`.
-/

namespace OsHomework
namespace Shell

open Stoi

/-- `_isBackgroundComamnd`: is the last character that is no blank a `&`? On a
blank line the source indexes the string at `npos`, which is `none`. -/
def isBackgroundCommand (cmdLine : String) : Option Bool :=
  (cmdLine.toList.rdropWhile Stoi.isspace).getLast?.map (· == '&')

/-- The line without its background sign. -/
def withoutSign (cmdLine : String) : List Char :=
  if isBackgroundCommand cmdLine = some true then
    (cmdLine.toList.rdropWhile Stoi.isspace).dropLast
  else cmdLine.toList

/-- The words the line is made of, its background sign apart. -/
def lineWords (cmdLine : String) : List String := words (withoutSign cmdLine)

/-! ### `argv` -/

/-- `strcpy` from a slot; `none` if the slot holds no string. -/
def Slot.copy : Slot → Option String
  | .param s => some s
  | _ => none

/-- The loop of `ExternalCommand::execute`: `k` parameters, from `parametrs[i]` on. -/
def copyParams (parametrs : List Slot) : ℕ → ℕ → Option (List String)
  | 0, _ => some []
  | k + 1, i => do
    let arg ← parametrs[i]?.bind Slot.copy
    let rest ← copyParams parametrs k (i + 1)
    return arg :: rest

/-- The `argv` that `ExternalCommand::execute` gives to `execvp` for a simple
command, up to its `NULL`. The first parameter is copied before the number of
parameters is looked at. -/
def simpleArgv (cmd : Command) : Option (List String) := do
  let arg ← cmd.parametrs[0]?.bind Slot.copy
  let rest ← copyParams cmd.parametrs (cmd.numOfParams - 1) 1
  return arg :: rest

/-- The constructor stores the words of the line, and the program gets them. -/
def PassesWords (cmdLine : String) : Prop :=
  ∃ cmd, mkCommand cmdLine = some cmd ∧
    cmd.numOfParams = (lineWords cmdLine).length ∧
    cmd.parametrs.take cmd.numOfParams = (lineWords cmdLine).map .param ∧
    (lineWords cmdLine ≠ [] → simpleArgv cmd = some (lineWords cmdLine))

/-! ### What the program gets -/

theorem copyParams_eq (pre : List Slot) (ps : List String) (rest : List Slot) :
    copyParams (pre ++ ps.map .param ++ rest) ps.length pre.length = some ps := by
  induction ps generalizing pre with
  | nil => rfl
  | cons p ps ih =>
    have ih := ih (pre ++ [.param p])
    rw [List.length_append, List.length_singleton] at ih
    rw [List.length_cons, copyParams, List.map_cons, ← List.singleton_append,
      ← List.append_assoc pre, ih]
    simp [Slot.copy]

/-- `argv` holds the parameters. -/
theorem simpleArgv_eq {ps : List String} (hne : ps ≠ []) (rest : List Slot) :
    simpleArgv ⟨ps.map .param ++ rest, ps.length⟩ = some ps := by
  obtain ⟨p, ps, rfl⟩ := List.exists_cons_of_ne_nil hne
  have hloop := copyParams_eq [.param p] ps rest
  unfold simpleArgv
  rw [List.length_singleton, List.singleton_append] at hloop
  simp only [List.map_cons, List.length_cons, Nat.add_sub_cancel]
  rw [hloop]
  rfl

/-- The line, cut at its background sign. -/
theorem toList_eq_of_background {cmdLine : String} (h : isBackgroundCommand cmdLine = some true) :
    ∃ blanks, (∀ c ∈ blanks, Stoi.isspace c = true) ∧
      cmdLine.toList = withoutSign cmdLine ++ '&' :: blanks := by
  have hsign : withoutSign cmdLine = (cmdLine.toList.rdropWhile Stoi.isspace).dropLast := if_pos h
  obtain ⟨c, hlast, hc⟩ := Option.map_eq_some_iff.mp h
  obtain rfl : c = '&' := by simpa using hc
  refine ⟨cmdLine.toList.rtakeWhile Stoi.isspace, fun c hc => ?_, ?_⟩
  · rw [List.rtakeWhile, List.mem_reverse] at hc
    exact List.mem_takeWhile_imp hc
  · conv_lhs => rw [← List.rdropWhile_append_rtakeWhile (p := Stoi.isspace) (l := cmdLine.toList)]
    rw [hsign, ← List.singleton_append, ← List.append_assoc, List.dropLast_append_getLast? _ hlast]

/-- Without another `&` the constructor finds the words of the line. -/
theorem params_eq_lineWords {cmdLine : String} (h : '&' ∉ withoutSign cmdLine) :
    params cmdLine = lineWords cmdLine := by
  have hself : ∀ s : List Char, '&' ∉ s → s.filter (· ≠ '&') = s := fun s hs =>
    List.filter_eq_self.mpr fun c hc => by
      simpa using fun heq : c = '&' => hs (heq ▸ hc)
  rw [params_eq, lineWords, words_eq]
  by_cases hbg : isBackgroundCommand cmdLine = some true
  · obtain ⟨blanks, hblanks, hline⟩ := toList_eq_of_background hbg
    have hamp : '&' ∉ blanks := fun hmem => absurd (hblanks _ hmem) (by decide)
    rw [hline, List.filter_append, hself _ h, List.filter_cons_of_neg (by simp), hself _ hamp,
      tokens_append_of_seps hblanks]
  · have hline : withoutSign cmdLine = cmdLine.toList := if_neg hbg
    rw [hline] at h ⊢
    rw [hself _ h]

/-- A `&` in a word of the line is in none of the parameters. -/
theorem notMem_withoutSign {cmdLine : String} (h : params cmdLine = lineWords cmdLine) :
    '&' ∉ withoutSign cmdLine := by
  intro hmem
  rw [params_eq, lineWords, words_eq] at h
  have htokens := List.map_injective_iff.mpr (fun _ _ hab => String.ofList_injective hab) h
  have hflat := congrArg List.flatten htokens
  rw [flatten_tokens, flatten_tokens] at hflat
  have hamp : '&' ∈ (withoutSign cmdLine).filter (!Stoi.isspace ·) :=
    List.mem_filter.mpr ⟨hmem, by decide⟩
  rw [← hflat] at hamp
  simp at hamp

/-- What the constructor has stored are its parameters, so these are the words of the line. -/
theorem PassesWords.params_eq {cmdLine : String} (h : PassesWords cmdLine) :
    params cmdLine = lineWords cmdLine ∧ (params cmdLine).length < commandMaxArgs := by
  obtain ⟨cmd, hcmd, hlen, htake, -⟩ := h
  have hfits : (params cmdLine).length < commandMaxArgs := by
    by_contra hlong
    rw [mkCommand_of_long (not_lt.mp hlong)] at hcmd
    cases hcmd
  obtain ⟨rest, hmk⟩ := exists_mkCommand hfits
  obtain rfl := Option.some.inj (hmk.symm.trans hcmd)
  dsimp only at htake
  rw [List.take_left' (List.length_map _)] at htake
  exact ⟨List.map_injective_iff.mpr (fun _ _ hab => Slot.param.inj hab) htake, hfits⟩

/-- **The background sign.** The program gets the words of the line, its background sign apart,
exactly if there are fewer than `COMMAND_MAX_ARGS` of them and the line has no other `&`. -/
theorem passesWords_iff (cmdLine : String) :
    PassesWords cmdLine ↔
      '&' ∉ withoutSign cmdLine ∧ (lineWords cmdLine).length < commandMaxArgs := by
  constructor
  · intro h
    obtain ⟨hwords, hfits⟩ := h.params_eq
    exact ⟨notMem_withoutSign hwords, hwords ▸ hfits⟩
  · rintro ⟨hamp, hfits⟩
    have hwords := params_eq_lineWords hamp
    rw [← hwords] at hfits
    obtain ⟨rest, hmk⟩ := exists_mkCommand hfits
    have htake : ((params cmdLine).map Slot.param ++ rest).take (params cmdLine).length =
        (params cmdLine).map .param := List.take_left' (List.length_map _)
    unfold PassesWords
    rw [← hwords]
    refine ⟨_, hmk, ?_⟩
    dsimp only
    refine ⟨rfl, htake, fun hne => ?_⟩
    exact simpleArgv_eq hne rest

/-- A `&` inside an argument is lost. -/
theorem erases_inner_sign :
    lineWords "echo a&b" = ["echo", "a&b"] ∧ params "echo a&b" = ["echo", "ab"] ∧
      ¬ PassesWords "echo a&b" := by
  have hline : lineWords "echo a&b" = ["echo", "a&b"] := by decide
  have hparams : params "echo a&b" = ["echo", "ab"] := by decide
  refine ⟨hline, hparams, fun h => ?_⟩
  have hwords := h.params_eq.1
  rw [hline, hparams] at hwords
  exact absurd hwords (by decide)

end Shell
end OsHomework
