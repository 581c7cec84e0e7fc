import Mathlib.Data.Nat.Digits.Defs
import OsHomework.Lib.CString

/-!
# Decimal numbers as text

`%lu`, `%d` and `%06lu` of `printf`, and `%d` of `scanf`, over lists of bytes. What `printf` has
written is read back by `scanf` when something other than a digit follows (`scanInt_formatInt`).
-/

namespace OsHomework

/-- `isdigit` in the C locale. -/
def isdigit (b : UInt8) : Bool := 48 ≤ b && b ≤ 57

/-- `%lu`. -/
def formatNat (n : ℕ) : List UInt8 :=
  if n = 0 then [48] else (Nat.digits 10 n).reverse.map fun d => UInt8.ofNat (48 + d)

/-- `%d`. -/
def formatInt (v : ℤ) : List UInt8 :=
  if v < 0 then 45 :: formatNat v.natAbs else formatNat v.natAbs

/-- `%0<width>lu`. -/
def formatPadded (width n : ℕ) : List UInt8 :=
  List.replicate (width - (formatNat n).length) 48 ++ formatNat n

/-- The value of a run of digits. -/
def digitsVal (ds : List UInt8) : ℕ := ds.foldl (fun n b => 10 * n + (b.toNat - 48)) 0

/-- The 32 bits of a `long` that are stored in an `int`, after the number has been cut off to the
range of a `long`. -/
def longToInt (v : ℤ) : ℤ := (max (-2 ^ 63) (min (2 ^ 63 - 1) v)).bmod (2 ^ 32)

/-- The sign in front of the digits, with what follows it. -/
def splitSign : List UInt8 → Bool × List UInt8
  | 45 :: s => (true, s)
  | 43 :: s => (false, s)
  | s => (false, s)

/-- One `%d`: white space is skipped, a sign may follow, and then there is at least one digit. -/
def scanInt (s : List UInt8) : Option ℤ :=
  let (neg, body) := splitSign (s.dropWhile isspace)
  let ds := body.takeWhile isdigit
  if ds = [] then none
  else some (longToInt (if neg then -digitsVal ds else digitsVal ds))

/-! ### Reading what has been written -/

section Digits

variable {n : ℕ} {b : UInt8}

theorem formatNat_ne_nil (n : ℕ) : formatNat n ≠ [] := by
  rw [formatNat]
  split_ifs with h0
  · exact List.cons_ne_nil _ _
  · rw [Ne, List.map_eq_nil_iff, List.reverse_eq_nil_iff, Nat.digits_eq_nil_iff_eq_zero]
    exact h0

theorem toNat_digit {d : ℕ} (hd : d < 10) : (UInt8.ofNat (48 + d)).toNat = 48 + d := by
  rw [UInt8.toNat_ofNat']
  exact Nat.mod_eq_of_lt (by omega)

theorem mem_formatNat (h : b ∈ formatNat n) : ∃ d < 10, b = UInt8.ofNat (48 + d) := by
  rw [formatNat] at h
  split_ifs at h with h0
  · exact ⟨0, by decide, List.mem_singleton.mp h⟩
  · obtain ⟨d, hd, rfl⟩ := List.mem_map.mp h
    exact ⟨d, Nat.digits_lt_base (by decide) (List.mem_reverse.mp hd), rfl⟩

/-- All bytes of a number are digits. -/
theorem isdigit_of_mem_formatNat (h : b ∈ formatNat n) : isdigit b = true := by
  obtain ⟨d, hd, rfl⟩ := mem_formatNat h
  rw [isdigit, Bool.and_eq_true, decide_eq_true_iff, decide_eq_true_iff, UInt8.le_iff_toNat_le,
    UInt8.le_iff_toNat_le, toNat_digit hd]
  exact ⟨Nat.le_add_right 48 d, Nat.add_le_add_left (Nat.le_of_lt_succ hd) 48⟩

theorem isspace_of_isdigit (h : isdigit b = true) : isspace b = false := by
  rw [isdigit, Bool.and_eq_true, decide_eq_true_iff, UInt8.le_iff_toNat_le] at h
  have h48 : 48 ≤ b.toNat := h.1
  rw [isspace, Bool.or_eq_false_iff, decide_eq_false_iff_not, Bool.and_eq_false_iff]
  refine ⟨?_, Or.inr ?_⟩
  · rintro rfl
    exact absurd h48 (by decide)
  · rw [decide_eq_false_iff_not, UInt8.le_iff_toNat_le]
    exact not_le.mpr (lt_of_lt_of_le (by decide) h48)

/-- The value of a number is the number. -/
theorem digitsVal_formatNat (n : ℕ) : digitsVal (formatNat n) = n := by
  rw [formatNat]
  split_ifs with h0
  · rw [h0]
    rfl
  · rw [digitsVal, List.foldl_map, List.foldl_reverse]
    have hfold : ∀ ds : List ℕ, (∀ d ∈ ds, d < 10) →
        ds.foldr (fun d n => 10 * n + ((UInt8.ofNat (48 + d)).toNat - 48)) 0
          = Nat.ofDigits 10 ds := by
      intro ds hds
      induction ds with
      | nil => rfl
      | cons d ds ih =>
        rw [List.foldr_cons, ih fun e he => hds e (List.mem_cons_of_mem d he),
          toNat_digit (hds d List.mem_cons_self), Nat.ofDigits_cons, Nat.add_sub_cancel_left,
          Nat.add_comm]
    rw [hfold _ fun d hd => Nat.digits_lt_base (by decide) hd, Nat.ofDigits_digits]

theorem takeWhile_isdigit_formatNat {rest : List UInt8} (hb : isdigit b = false) :
    (formatNat n ++ b :: rest).takeWhile isdigit = formatNat n := by
  rw [List.takeWhile_append_of_pos fun c hc => isdigit_of_mem_formatNat hc,
    List.takeWhile_cons_of_neg (by rw [hb]; exact Bool.false_ne_true), List.append_nil]

theorem longToInt_of_range {v : ℤ} (h : -2 ^ 31 ≤ v ∧ v < 2 ^ 31) : longToInt v = v := by
  rw [longToInt, min_eq_right (by omega), max_eq_right (by omega)]
  exact Int.bmod_eq_of_le (by omega) (by omega)

theorem splitSign_of_isdigit {s : List UInt8} (hb : isdigit b = true) :
    splitSign (b :: s) = (false, b :: s) := by
  unfold splitSign
  split
  · next heq => exact absurd hb (by rw [(List.cons.inj heq).1]; decide)
  · next heq => exact absurd hb (by rw [(List.cons.inj heq).1]; decide)
  · rfl

/-- The sign of a number, and its digits. -/
theorem splitSign_formatInt (v : ℤ) (s : List UInt8) :
    splitSign (formatInt v ++ s) = (decide (v < 0), formatNat v.natAbs ++ s) := by
  rw [formatInt]
  split_ifs with hneg
  · rw [decide_eq_true hneg]
    rfl
  · obtain ⟨c, cs, hcs⟩ := List.exists_cons_of_ne_nil (formatNat_ne_nil v.natAbs)
    have hc : isdigit c = true := isdigit_of_mem_formatNat (n := v.natAbs) (by simp [hcs])
    rw [decide_eq_false hneg, hcs]
    exact splitSign_of_isdigit hc

theorem dropWhile_isspace_formatInt (v : ℤ) (s : List UInt8) :
    (formatInt v ++ s).dropWhile isspace = formatInt v ++ s := by
  rw [formatInt]
  split_ifs with hneg
  · exact List.dropWhile_cons_of_neg (by decide)
  · obtain ⟨c, cs, hcs⟩ := List.exists_cons_of_ne_nil (formatNat_ne_nil v.natAbs)
    have hc : isdigit c = true := isdigit_of_mem_formatNat (n := v.natAbs) (by simp [hcs])
    rw [hcs]
    exact List.dropWhile_cons_of_neg (by rw [isspace_of_isdigit hc]; exact Bool.false_ne_true)

/-- **`scanf` reads what `printf` has written**, behind any white space. -/
theorem scanInt_formatInt {v : ℤ} {ws rest : List UInt8} (hv : -2 ^ 31 ≤ v ∧ v < 2 ^ 31)
    (hws : ∀ c ∈ ws, isspace c = true) (hb : isdigit b = false) :
    scanInt (ws ++ (formatInt v ++ b :: rest)) = some v := by
  have hval : (if decide (v < 0) = true then -(v.natAbs : ℤ) else v.natAbs) = v := by
    split_ifs with hneg
    · have := of_decide_eq_true hneg
      omega
    · have := of_decide_eq_false (Bool.eq_false_of_not_eq_true hneg)
      omega
  unfold scanInt
  rw [List.dropWhile_append_of_pos hws, dropWhile_isspace_formatInt, splitSign_formatInt]
  dsimp only
  rw [takeWhile_isdigit_formatNat hb, if_neg (formatNat_ne_nil _), digitsVal_formatNat, hval,
    longToInt_of_range hv]

end Digits

end OsHomework
