import Mathlib.Data.List.TakeWhile
import Mathlib.Tactic

/-!
# Reading integers

`std::stoi(s, &pos)` in base ten: white space is skipped, a sign may follow, and
then the longest run of digits is read. The call throws when there is no digit
and when the value does not fit an `int`, which is `none` here; otherwise it
gives the value and the number `pos` of characters it has used.

`Numeral s v` says, without running the reader, that the whole of `s` is an
integer with the value `v`. It is what a caller learns that compares `pos` with
the length of `s` (`entire`, `entire_eq_some_iff`).
-/

namespace OsHomework
namespace Stoi

/-- `isspace` in the C locale. -/
def isspace (c : Char) : Bool := c = ' ' || (9 ≤ c.toNat && c.toNat ≤ 13)

/-- The sign in front of the digits, with what follows it. -/
def readSign : List Char → Bool × List Char
  | '-' :: cs => (true, cs)
  | '+' :: cs => (false, cs)
  | cs => (false, cs)

/-- The value of a run of digits. -/
def digitsVal (ds : List Char) : ℕ := ds.foldl (fun n c => 10 * n + (c.toNat - 48)) 0

/-- The value of a run of digits behind a sign. -/
def signedVal (neg : Bool) (ds : List Char) : Int := if neg then -digitsVal ds else digitsVal ds

/-- The values of an `int`. -/
def IntRange (v : Int) : Prop := -2 ^ 31 ≤ v ∧ v < 2 ^ 31

instance (v : Int) : Decidable (IntRange v) := inferInstanceAs (Decidable (_ ∧ _))

/-- `std::stoi(s, &pos)`: the value and `pos`, or `none` when it throws. -/
def stoi (s : List Char) : Option (Int × ℕ) :=
  let (neg, body) := readSign (s.dropWhile isspace)
  let ds := body.takeWhile Char.isDigit
  -- `invalid_argument`, then `out_of_range`
  if ds = [] then none
  else if IntRange (signedVal neg ds) then
    some (signedVal neg ds, s.length - (body.dropWhile Char.isDigit).length)
  else none

/-- The check a caller makes afterwards, that the whole of `s` was used. -/
def entire (s : List Char) : Option Int :=
  match stoi s with
  | some (v, pos) => if pos = s.length then some v else none
  | none => none

/-- The text of a sign, as `readSign` takes it. -/
def IsSign (neg : Bool) (sign : List Char) : Prop :=
  (neg = true ∧ sign = ['-']) ∨ (neg = false ∧ (sign = ['+'] ∨ sign = []))

/-- The whole of `s` is an integer with the value `v`, in the range of an `int`. -/
def Numeral (s : List Char) (v : Int) : Prop :=
  ∃ (ws sign ds : List Char) (neg : Bool),
    s = ws ++ (sign ++ ds) ∧ (∀ c ∈ ws, isspace c = true) ∧ IsSign neg sign ∧
    ds ≠ [] ∧ (∀ c ∈ ds, c.isDigit = true) ∧ v = signedVal neg ds ∧ IntRange v

/-! ### The reader on a text put together from parts -/

theorem isspace_of_isDigit {c : Char} (h : c.isDigit = true) : isspace c = false := by
  simp only [Char.isDigit, Bool.and_eq_true, decide_eq_true_eq] at h
  have h48 : 48 ≤ c.toNat := h.1
  have hne : c ≠ ' ' := by
    rintro rfl
    exact absurd h48 (by decide)
  simp only [isspace, Bool.or_eq_false_iff, decide_eq_false_iff_not, Bool.and_eq_false_iff]
  exact ⟨hne, Or.inr (by omega)⟩

/-- The sign is read where it stands in front of a digit. -/
theorem readSign_append {neg : Bool} {sign ds : List Char} (hsign : IsSign neg sign)
    (hne : ds ≠ []) (hds : ∀ c ∈ ds, c.isDigit = true) : readSign (sign ++ ds) = (neg, ds) := by
  rcases hsign with ⟨rfl, rfl⟩ | ⟨rfl, rfl | rfl⟩
  · rfl
  · rfl
  · obtain ⟨c, cs, rfl⟩ := List.exists_cons_of_ne_nil hne
    have hc := hds c List.mem_cons_self
    have hminus : c ≠ '-' := by
      rintro rfl
      exact absurd hc (by decide)
    have hplus : c ≠ '+' := by
      rintro rfl
      exact absurd hc (by decide)
    unfold readSign
    split
    · next heq => exact absurd (List.cons.inj heq).1 hminus
    · next heq => exact absurd (List.cons.inj heq).1 hplus
    · rfl

/-- What `readSign` has taken off is a sign. -/
theorem readSign_spec (s : List Char) :
    ∃ sign, IsSign (readSign s).1 sign ∧ s = sign ++ (readSign s).2 := by
  unfold readSign
  split
  · exact ⟨['-'], Or.inl ⟨rfl, rfl⟩, rfl⟩
  · exact ⟨['+'], Or.inr ⟨rfl, Or.inl rfl⟩, rfl⟩
  · exact ⟨[], Or.inr ⟨rfl, Or.inr rfl⟩, rfl⟩

/-- No white space stands in front of a sign with digits. -/
theorem dropWhile_isspace_append {ws sign ds : List Char} {neg : Bool}
    (hws : ∀ c ∈ ws, isspace c = true) (hsign : IsSign neg sign) (hne : ds ≠ [])
    (hds : ∀ c ∈ ds, c.isDigit = true) :
    (ws ++ (sign ++ ds)).dropWhile isspace = sign ++ ds := by
  rw [List.dropWhile_append_of_pos hws]
  rcases hsign with ⟨-, rfl⟩ | ⟨-, rfl | rfl⟩
  · exact List.dropWhile_cons_of_neg (by decide)
  · exact List.dropWhile_cons_of_neg (by decide)
  · obtain ⟨c, cs, rfl⟩ := List.exists_cons_of_ne_nil hne
    apply List.dropWhile_cons_of_neg
    rw [isspace_of_isDigit (hds c List.mem_cons_self)]
    decide

/-- An integer is read to its end. -/
theorem Numeral.stoi_eq {s : List Char} {v : Int} (h : Numeral s v) :
    stoi s = some (v, s.length) := by
  obtain ⟨ws, sign, ds, neg, rfl, hws, hsign, hne, hds, rfl, hrange⟩ := h
  have htake : ds.takeWhile Char.isDigit = ds := List.takeWhile_eq_self_iff.mpr hds
  have hdrop : ds.dropWhile Char.isDigit = [] := List.dropWhile_eq_nil_iff.mpr hds
  unfold stoi
  rw [dropWhile_isspace_append hws hsign hne hds, readSign_append hsign hne hds]
  dsimp only
  rw [htake, hdrop, if_neg hne, if_pos hrange]
  rfl

/-- A text that is read to its end is an integer. -/
theorem Numeral.of_stoi {s : List Char} {v : Int} (h : stoi s = some (v, s.length)) :
    Numeral s v := by
  unfold stoi at h
  obtain ⟨sign, hsign, hbody⟩ := readSign_spec (s.dropWhile isspace)
  revert h hsign hbody
  generalize readSign (s.dropWhile isspace) = r
  obtain ⟨neg, body⟩ := r
  intro h hsign hbody
  dsimp only at h hsign hbody
  split at h
  · cases h
  · next hne =>
    split at h
    · next hrange =>
      have hs : s = s.takeWhile isspace ++ (sign ++ body) := by
        rw [← hbody, List.takeWhile_append_dropWhile]
      have hlen := congrArg List.length hs
      simp only [Option.some.injEq, Prod.mk.injEq] at h
      obtain ⟨rfl, hpos⟩ := h
      -- nothing is left behind the digits
      have hrest : body.dropWhile Char.isDigit = [] := by
        rw [← List.length_eq_zero_iff]
        have hle := (List.dropWhile_sublist (l := body) Char.isDigit).length_le
        have hbne : body ≠ [] := by
          rintro rfl
          exact hne rfl
        have := List.length_pos_of_ne_nil hbne
        simp only [List.length_append] at hlen
        omega
      have hds : body.takeWhile Char.isDigit = body := by
        conv_rhs => rw [← List.takeWhile_append_dropWhile (p := Char.isDigit) (l := body), hrest]
        rw [List.append_nil]
      rw [hds] at hne hrange ⊢
      refine ⟨s.takeWhile isspace, sign, body, neg, hs, ?_, hsign, hne, ?_, rfl, hrange⟩
      · exact fun c hc => List.mem_takeWhile_imp hc
      · intro c hc
        rw [← hds] at hc
        exact List.mem_takeWhile_imp hc
    · cases h

/-- **The reader uses the whole text exactly when the text is an integer.** -/
theorem stoi_entire_iff (s : List Char) (v : Int) :
    stoi s = some (v, s.length) ↔ Numeral s v :=
  ⟨Numeral.of_stoi, Numeral.stoi_eq⟩

theorem entire_eq_some_iff (s : List Char) (v : Int) : entire s = some v ↔ Numeral s v := by
  rw [← stoi_entire_iff]
  unfold entire
  cases h : stoi s with
  | none => simp
  | some p =>
    obtain ⟨w, pos⟩ := p
    by_cases hpos : pos = s.length
    · simp [hpos]
    · simp [hpos]

/-- The value of an integer text is determined. -/
theorem Numeral.unique {s : List Char} {v w : Int} (hv : Numeral s v) (hw : Numeral s w) :
    v = w := by
  have h := ((stoi_entire_iff s v).mpr hv).symm.trans ((stoi_entire_iff s w).mpr hw)
  simpa using h

end Stoi
end OsHomework
