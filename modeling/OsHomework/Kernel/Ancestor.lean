import OsHomework.Kernel.Tasks
import Mathlib.Data.Fin.VecNotation

/-!
# The walk to the lightest divisor

What `sys_get_lightest_divisor_ancestor` returns, and when it returns at all. Its
loop looks for pid `1` only, tests before it moves up, and keeps the first of several tasks
of one weight because the comparison with the minimum is strict.

* `IsLightest` — the loop's invariant: the minimum belongs to the nearest
  lightest divisor among the tasks that have been looked at. `IsLightest.step`
  carries it up by one task and `IsLightest.run` to pid `1`.
* `ancestorLoop_running` — the loop does not end on a chain without pid `1`.
  In a process tree such a chain goes on at the root for ever, the root being its own
  parent.
-/

namespace OsHomework
namespace Kernel

variable {Task : Type}

/-- Among the first `n + 1` tasks on the chain from `t`, the `k`-th is the nearest of those whose
weight is the least positive one that divides the weight of `t`. -/
structure IsLightest (T : TaskTable Task) (t : Task) (n k : ℕ) : Prop where
  le : k ≤ n
  pos : 0 < T.weight (ancestor T t k)
  dvd : T.weight (ancestor T t k) ∣ T.weight t
  least : ∀ j ≤ n, 0 < T.weight (ancestor T t j) → T.weight (ancestor T t j) ∣ T.weight t →
    T.weight (ancestor T t k) ≤ T.weight (ancestor T t j)
  nearest : ∀ j < k, T.weight (ancestor T t j) ≠ T.weight (ancestor T t k)

section

variable {T : TaskTable Task} {t a : Task} {i n k fuel : ℕ} {w minWeight minPid : ℤ}

/-! ### One turn of the loop -/

/-- The loop with `current_ancestor` on pid `1` returns the minimum. -/
theorem ancestorLoop_of_init (h : T.pid a = 1) :
    ancestorLoop T w (fuel + 1) a minWeight minPid = .returned minPid :=
  if_pos h

/-- **A turn of the loop** moves up by one. It takes over the task there when its weight is
positive, divides, and is below the minimum. -/
theorem ancestorLoop_turn (h : T.pid a ≠ 1) :
    ancestorLoop T w (fuel + 1) a minWeight minPid =
      if T.weight (T.realParent a) ≠ 0 ∧ T.weight (T.realParent a) ∣ w ∧
          T.weight (T.realParent a) < minWeight then
        ancestorLoop T w fuel (T.realParent a) (T.weight (T.realParent a))
          (T.pid (T.realParent a))
      else ancestorLoop T w fuel (T.realParent a) minWeight minPid := by
  rw [ancestorLoop, if_neg h]
  by_cases hzero : T.weight (T.realParent a) = 0
  · simp [hzero]
  · -- the remainder of C is zero exactly for a divisor
    have hdvd : w.tmod (T.weight (T.realParent a)) = 0 ↔ T.weight (T.realParent a) ∣ w :=
      Int.dvd_iff_tmod_eq_zero.symm
    simp only [hzero, if_false, cmod, hdvd, ne_eq, not_false_eq_true, true_and]

/-- The loop never divides by zero. -/
theorem ancestorLoop_ne_divideError :
    ancestorLoop T w fuel a minWeight minPid ≠ .divideError := by
  induction fuel generalizing a minWeight minPid with
  | zero => exact WalkResult.noConfusion
  | succ fuel ih =>
    by_cases h : T.pid a = 1
    · rw [ancestorLoop_of_init h]
      exact WalkResult.noConfusion
    · rw [ancestorLoop_turn h]
      split_ifs
      · exact ih
      · exact ih

/-! ### The nearest lightest divisor -/

/-- The caller itself is what the loop starts with. -/
theorem IsLightest.start (h : T.weight t ≠ 0) : IsLightest T t 0 0 where
  le := Nat.le_refl 0
  pos := lt_of_le_of_ne (T.weight_nonneg t) (Ne.symm h)
  dvd := Int.dvd_refl (T.weight t)
  least j hj _ _ := by rw [Nat.le_zero.mp hj]
  nearest j hj := absurd hj (Nat.not_lt_zero j)

/-- The next task does not qualify, or is not lighter. -/
theorem IsLightest.keep (h : IsLightest T t i k)
    (hnext : 0 < T.weight (ancestor T t (i + 1)) →
      T.weight (ancestor T t (i + 1)) ∣ T.weight t →
      T.weight (ancestor T t k) ≤ T.weight (ancestor T t (i + 1))) :
    IsLightest T t (i + 1) k where
  le := Nat.le_succ_of_le h.le
  pos := h.pos
  dvd := h.dvd
  least j hj hpos hdvd := by
    -- an ancestor that has been looked at, or the new one
    rcases Nat.le_succ_iff.mp hj with hj | rfl
    · exact h.least j hj hpos hdvd
    · exact hnext hpos hdvd
  nearest := h.nearest

/-- The next task qualifies and is lighter. It is then lighter than every task that qualifies
before it, so it is the nearest of its weight. -/
theorem IsLightest.replace (h : IsLightest T t i k)
    (hpos : 0 < T.weight (ancestor T t (i + 1)))
    (hdvd : T.weight (ancestor T t (i + 1)) ∣ T.weight t)
    (hlt : T.weight (ancestor T t (i + 1)) < T.weight (ancestor T t k)) :
    IsLightest T t (i + 1) (i + 1) where
  le := Nat.le_refl (i + 1)
  pos := hpos
  dvd := hdvd
  least j hj hpos' hdvd' := by
    rcases Nat.le_succ_iff.mp hj with hj | rfl
    · exact hlt.le.trans (h.least j hj hpos' hdvd')
    · exact Int.le_refl _
  nearest j hj heq := by
    -- an earlier one of this weight would have been the minimum
    have hle := h.least j (Nat.le_of_lt_succ hj) (by rwa [heq]) (by rwa [heq])
    rw [heq] at hle
    exact absurd hlt (not_lt_of_ge hle)

/-- **The invariant along one turn.** -/
theorem IsLightest.step (h : IsLightest T t i k) (hpid : T.pid (ancestor T t i) ≠ 1) :
    ∃ k', IsLightest T t (i + 1) k' ∧
      ∀ fuel, ancestorLoop T (T.weight t) (fuel + 1) (ancestor T t i)
          (T.weight (ancestor T t k)) (T.pid (ancestor T t k)) =
        ancestorLoop T (T.weight t) fuel (ancestor T t (i + 1))
          (T.weight (ancestor T t k')) (T.pid (ancestor T t k')) := by
  simp only [ancestorLoop_turn hpid, ← ancestor_succ]
  have hnonneg := T.weight_nonneg (ancestor T t (i + 1))
  split_ifs with htake
  · -- the minimum is replaced
    obtain ⟨hne, hdvd, hlt⟩ := htake
    exact ⟨i + 1, h.replace (lt_of_le_of_ne hnonneg (Ne.symm hne)) hdvd hlt, fun _ => rfl⟩
  · -- the minimum stays, since one of the three tests has failed
    refine ⟨k, h.keep fun hpos hdvd => ?_, fun _ => rfl⟩
    by_contra hlt
    exact htake ⟨hpos.ne', hdvd, lt_of_not_ge hlt⟩

/-- **The invariant up to pid `1`**, which the loop meets `d` turns later. -/
theorem IsLightest.run {d : ℕ} (h : IsLightest T t i k) (hd : i + d = n)
    (hinit : T.pid (ancestor T t n) = 1) (hfirst : ∀ j < n, T.pid (ancestor T t j) ≠ 1) :
    ∃ k', IsLightest T t n k' ∧
      ∀ fuel, d < fuel →
        ancestorLoop T (T.weight t) fuel (ancestor T t i) (T.weight (ancestor T t k))
          (T.pid (ancestor T t k)) = .returned (T.pid (ancestor T t k')) := by
  -- induction on the number of turns that are left
  induction d generalizing i k with
  | zero =>
    obtain rfl : i = n := hd
    refine ⟨k, h, fun fuel hfuel => ?_⟩
    obtain ⟨fuel, rfl⟩ := Nat.exists_eq_succ_of_ne_zero (Nat.ne_of_gt hfuel)
    exact ancestorLoop_of_init hinit
  | succ d ih =>
    -- one turn, and then the rest
    obtain ⟨k₁, hk₁, hstep⟩ := h.step (hfirst i (by omega))
    obtain ⟨k', hk', hrun⟩ := ih hk₁ (by omega)
    refine ⟨k', hk', fun fuel hfuel => ?_⟩
    obtain ⟨fuel, rfl⟩ := Nat.exists_eq_succ_of_ne_zero (Nat.ne_zero_of_lt hfuel)
    rw [hstep fuel]
    exact hrun fuel (Nat.lt_of_succ_lt_succ hfuel)

/-- The system call on a chain that reaches pid `1`, for a caller with a weight. -/
theorem exists_isLightest (hinit : T.pid (ancestor T t n) = 1)
    (hfirst : ∀ j < n, T.pid (ancestor T t j) ≠ 1) (hweight : T.weight t ≠ 0) :
    ∃ k, IsLightest T t n k ∧
      ∀ fuel, n < fuel →
        sysGetLightestDivisorAncestor T t fuel = .returned (T.pid (ancestor T t k)) := by
  -- the walk starts with the caller as its own minimum
  have hstart := IsLightest.start hweight
  obtain ⟨k, hk, hrun⟩ := hstart.run (Nat.zero_add n) hinit hfirst
  refine ⟨k, hk, fun fuel hfuel => ?_⟩
  unfold sysGetLightestDivisorAncestor
  by_cases hself : T.pid t = 1
  · -- pid `1` calls, and its own chain has no other task
    obtain rfl : n = 0 := by
      by_contra hn
      exact hfirst 0 (Nat.pos_of_ne_zero hn) hself
    obtain rfl : k = 0 := Nat.le_zero.mp hk.le
    rw [if_pos hself]
    rfl
  · -- any other caller enters the loop
    rw [if_neg hself, if_neg hweight]
    exact hrun fuel hfuel

/-- **The lightest divisor.** On a chain of `real_parent` that first meets pid `1` after `n` steps,
a caller of weight `0` gets its own pid. Any other caller gets, with enough fuel, the pid of the
nearest of the tasks up to pid `1` whose weight is the least positive one that divides its own.
There is no division by zero, with any fuel. -/
theorem lightest_divisor_ancestor (T : TaskTable Task) (t : Task) (n : ℕ)
    (hinit : T.pid (ancestor T t n) = 1) (hfirst : ∀ j < n, T.pid (ancestor T t j) ≠ 1) :
    (T.weight t = 0 →
        ∀ fuel, sysGetLightestDivisorAncestor T t fuel = .returned (T.pid t)) ∧
      (T.weight t ≠ 0 →
        ∃ k, IsLightest T t n k ∧
          ∀ fuel, n < fuel →
            sysGetLightestDivisorAncestor T t fuel = .returned (T.pid (ancestor T t k))) ∧
      ∀ fuel, sysGetLightestDivisorAncestor T t fuel ≠ .divideError := by
  refine ⟨fun hweight fuel => ?_, exists_isLightest hinit hfirst, fun fuel => ?_⟩
  · unfold sysGetLightestDivisorAncestor
    simp only [hweight, if_true, ite_self]
  · unfold sysGetLightestDivisorAncestor
    split_ifs
    · exact WalkResult.noConfusion
    · exact WalkResult.noConfusion
    · exact ancestorLoop_ne_divideError

/-- Pid `7` of weight `6` under pid `5` of weight `2`, under pid `1` of weight `2`. -/
def threeGenerations : TaskTable (Fin 3) where
  pid := ![1, 5, 7]
  weight := ![2, 2, 6]
  realParent := ![0, 0, 1]
  groupLeader := id
  children := ![[1], [2], []]
  weight_range := by decide

/-- Both ancestors of pid `7` have the least weight that divides, and the parent is returned. -/
theorem lightest_divisor_ancestor_three :
    threeGenerations.pid (ancestor threeGenerations 2 2) = 1 ∧
      (∀ j < 2, threeGenerations.pid (ancestor threeGenerations 2 j) ≠ 1) ∧
      threeGenerations.weight 2 ≠ 0 ∧
      ∃ k, IsLightest threeGenerations 2 2 k ∧
        ∀ fuel, 2 < fuel → sysGetLightestDivisorAncestor threeGenerations 2 fuel =
          .returned (threeGenerations.pid (ancestor threeGenerations 2 k)) :=
  ⟨rfl, by decide, by decide,
    (lightest_divisor_ancestor threeGenerations 2 2 rfl (by decide)).2.1 (by decide)⟩

example : sysGetLightestDivisorAncestor threeGenerations 2 3 = .returned 5 := by decide

/-! ### When the walk ends -/

/-- **The loop on a chain without pid `1`** goes on for ever. -/
theorem ancestorLoop_running (h : ∀ n, T.pid (ancestor T a n) ≠ 1) :
    ancestorLoop T w fuel a minWeight minPid = .running := by
  induction fuel generalizing a minWeight minPid with
  | zero => rfl
  | succ fuel ih =>
    have hself : T.pid a ≠ 1 := h 0
    -- the rest of the chain has no pid `1` either
    have hnext : ∀ n, T.pid (ancestor T (T.realParent a) n) ≠ 1 := fun n => h (n + 1)
    rw [ancestorLoop_turn hself]
    split_ifs
    · exact ih hnext
    · exact ih hnext

theorem sysGetLightestDivisorAncestor_running (hweight : T.weight t ≠ 0)
    (h : ∀ n, T.pid (ancestor T t n) ≠ 1) :
    sysGetLightestDivisorAncestor T t fuel = .running := by
  have hself : T.pid t ≠ 1 := h 0
  unfold sysGetLightestDivisorAncestor
  rw [if_neg hself, if_neg hweight]
  exact ancestorLoop_running h

/-- The call returns or traps after finitely many turns. -/
def Terminates (T : TaskTable Task) (t : Task) : Prop :=
  ∃ fuel, sysGetLightestDivisorAncestor T t fuel ≠ .running

/-- The walk ends exactly on the chains that reach pid `1`. -/
theorem terminates_iff_reaches_init :
    Terminates T t ↔ T.weight t = 0 ∨ ∃ n, T.pid (ancestor T t n) = 1 := by
  classical
  constructor
  · rintro ⟨fuel, hfuel⟩
    by_contra hnot
    -- without weight `0` and without pid `1` the loop would go on
    push Not at hnot
    obtain ⟨hweight, hpid⟩ := hnot
    exact hfuel (sysGetLightestDivisorAncestor_running hweight hpid)
  · intro h
    by_cases hweight : T.weight t = 0
    · refine ⟨0, ?_⟩
      simp [sysGetLightestDivisorAncestor, hweight]
    · -- the first task of pid `1` is where the loop ends
      have hex := h.resolve_left hweight
      have hfirst : ∀ j < Nat.find hex, T.pid (ancestor T t j) ≠ 1 := fun j => Nat.find_min hex
      obtain ⟨k, -, hreturns⟩ := exists_isLightest (Nat.find_spec hex) hfirst hweight
      refine ⟨Nat.find hex + 1, ?_⟩
      rw [hreturns _ (Nat.lt_succ_self _)]
      exact WalkResult.noConfusion

end

/-- The tasks form a tree under the boot task that `INIT_TASK` sets up: its pid is `0`, and it is
its own `real_parent`. -/
structure ProcessTree (Task : Type) extends TaskTable Task where
  root : Task
  root_pid : pid root = 0
  root_parent : realParent root = root
  reaches_root : ∀ t, ∃ n, realParent^[n] t = root

namespace ProcessTree

/-- On its way to the root the chain from `t` meets a task of pid `1`. -/
def ThroughInit (P : ProcessTree Task) (t : Task) : Prop :=
  ∃ n, (∀ j ≤ n, ancestor P.toTaskTable t j ≠ P.root) ∧
    P.pid (ancestor P.toTaskTable t n) = 1

variable {P : ProcessTree Task} {t : Task} {j n : ℕ}

/-- A chain that has come to the root stays there. -/
theorem ancestor_eq_root (h : ancestor P.toTaskTable t j = P.root) (hj : j ≤ n) :
    ancestor P.toTaskTable t n = P.root := by
  induction n, hj using Nat.le_induction with
  | base => exact h
  | succ n _ ih => rw [ancestor_succ, ih, P.root_parent]

theorem throughInit_iff :
    P.ThroughInit t ↔ ∃ n, P.pid (ancestor P.toTaskTable t n) = 1 := by
  constructor
  · rintro ⟨n, -, hn⟩
    exact ⟨n, hn⟩
  · rintro ⟨n, hn⟩
    refine ⟨n, fun j hj hroot => ?_, hn⟩
    -- behind the root there is only pid `0`
    rw [ancestor_eq_root hroot hj, P.root_pid] at hn
    exact absurd hn (by decide)

/-- **When the walk ends**: exactly for the callers of weight `0`, and for those whose way to the
root leads through pid `1`. -/
theorem walk_ends_iff (P : ProcessTree Task) (t : Task) :
    Terminates P.toTaskTable t ↔ P.weight t = 0 ∨ P.ThroughInit t := by
  rw [throughInit_iff]
  exact terminates_iff_reaches_init

/-- A table that the boot leaves: `init` and `kthreadd` under the boot task, and a program that
`kthreadd` is the parent of, which has set its weight. -/
def booted : ProcessTree (Fin 4) where
  pid := ![0, 1, 2, 90]
  weight := ![0, 0, 0, 1]
  realParent := ![0, 0, 0, 2]
  groupLeader := id
  children := ![[1, 2], [], [3], []]
  weight_range := by decide
  root := 0
  root_pid := rfl
  root_parent := rfl
  reaches_root := fun t => ⟨2, by revert t; decide⟩

/-- The walk from that program comes to the boot task, and stays there. -/
theorem helper_walk_hangs : ¬ Terminates booted.toTaskTable 3 := by
  rintro ⟨fuel, hfuel⟩
  have hpid : ∀ n, booted.pid (ancestor booted.toTaskTable 3 n) ≠ 1 := by
    rintro (_ | _ | n)
    · decide
    · decide
    · -- the boot task is two steps up, and its own parent
      have hroot : ancestor booted.toTaskTable 3 2 = booted.root := rfl
      rw [ancestor_eq_root hroot (Nat.le_add_left 2 n), booted.root_pid]
      decide
  exact hfuel (sysGetLightestDivisorAncestor_running (by decide) hpid)

end ProcessTree

end Kernel
end OsHomework
