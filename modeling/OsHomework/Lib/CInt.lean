import Mathlib.Tactic

/-!
# The `int` of C

An `int` has 32 bits here. A sum that leaves the range is undefined in C; what is modelled is what
the machine does, which keeps the low bits (`wrapInt`). Inside the range nothing is lost
(`wrapInt_eq`), and one step behind its end the value is the least one (`wrapInt_two_pow`).
-/

namespace OsHomework

/-- The values of a C `int`. -/
def IsInt (n : Int) : Prop := -2 ^ 31 ≤ n ∧ n < 2 ^ 31

/-- What an `int` holds after an assignment of `n`. -/
def wrapInt (n : Int) : Int := Int.bmod n (2 ^ 32)

theorem wrapInt_eq {n : Int} (h : IsInt n) : wrapInt n = n := by
  obtain ⟨hlo, hhi⟩ := h
  exact Int.bmod_eq_of_le (by norm_num; omega) (by norm_num; omega)

theorem wrapInt_two_pow : wrapInt (2 ^ 31) = -2 ^ 31 := by decide

end OsHomework
