import Mathlib.Algebra.Order.Ring.Int
import Mathlib.Logic.Function.Iterate
import Mathlib.Tactic.Common

/-!
# The tasks of the kernel

The fields of `struct task_struct` that the system calls of `hw2.c` read, and these
system calls. `weight` is a `long`. Its only writer, `sys_set_weight`, takes an `int` and
refuses a negative one, and the boot task starts with weight `0`; so the range of
the weights is a field of the table here, and `sysSetWeight` keeps it by construction.

The loop of `sys_get_lightest_divisor_ancestor` has no bound in the source and runs on
fuel. An execution that has not returned yet, and one that has been stopped by the trap of
a division, are results of their own.
-/

namespace OsHomework
namespace Kernel

variable {Task : Type}

/-- The tasks, with the fields of `task_struct` that are read. -/
structure TaskTable (Task : Type) where
  pid : Task → ℤ
  weight : Task → ℤ
  realParent : Task → Task
  groupLeader : Task → Task
  /-- The tasks on the list `children`, in the order of the list. -/
  children : Task → List Task
  weight_range : ∀ t, 0 ≤ weight t ∧ weight t < 2 ^ 63

/-- `-EINVAL`. -/
def eInval : ℤ := -22

/-- `-ESRCH`. -/
def eSrch : ℤ := -3

/-! ### `sys_set_weight` and `sys_get_weight` -/

/-- `sys_set_weight`, called by the task `t`: the table afterwards, and what is returned. -/
def sysSetWeight [DecidableEq Task] (T : TaskTable Task) (t : Task) (weight : Int32) :
    TaskTable Task × ℤ :=
  if h : weight.toInt < 0 then (T, eInval)
  else
    ({ T with
        weight := Function.update T.weight t weight.toInt
        weight_range := by
          intro u
          by_cases hu : u = t
          · subst hu
            have hlt := weight.toInt_lt
            simp only [Function.update_self]
            omega
          · simpa only [Function.update_of_ne hu] using T.weight_range u },
      0)

/-- `sys_get_weight`. -/
def sysGetWeight (T : TaskTable Task) (t : Task) : ℤ :=
  T.weight t

/-- **The outcome of `sys_set_weight`**: an error and the same table, or the weight of the caller
alone is the one that was asked for. -/
theorem sysSetWeight_cases [DecidableEq Task] (T : TaskTable Task) (t : Task) (w : Int32) :
    ((sysSetWeight T t w).2 = eInval ∧ (sysSetWeight T t w).1 = T ∧ w.toInt < 0) ∨
      ((sysSetWeight T t w).2 = 0 ∧ sysGetWeight (sysSetWeight T t w).1 t = w.toInt ∧
        ∀ u, u ≠ t → sysGetWeight (sysSetWeight T t w).1 u = sysGetWeight T u) := by
  unfold sysSetWeight sysGetWeight
  split_ifs with h
  · exact Or.inl ⟨rfl, rfl, h⟩
  · exact Or.inr ⟨rfl, Function.update_self .., fun u hu => Function.update_of_ne hu ..⟩

/-- Weights that are an `int` stay so. -/
theorem sysSetWeight_weight_lt [DecidableEq Task] {T : TaskTable Task} (t : Task) (w : Int32)
    (h : ∀ u, T.weight u < 2 ^ 31) (u : Task) : (sysSetWeight T t w).1.weight u < 2 ^ 31 := by
  obtain ⟨-, heq, -⟩ | ⟨-, hself, hrest⟩ := sysSetWeight_cases T t w
  · rw [heq]
    exact h u
  · by_cases hu : u = t
    · rw [hu]
      exact hself.trans_lt w.toInt_lt
    · exact (hrest u hu).trans_lt (h u)

/-! ### `sys_get_lightest_divisor_ancestor` -/

/-- How far an execution has come. -/
inductive WalkResult where
  | running
  | divideError
  | returned (pid : ℤ)
  deriving DecidableEq

/-- The operator `%` of C, which traps on the divisor `0`. The other trap, of the least `long` by
`-1`, needs negative weights. -/
def cmod (a b : ℤ) : Option ℤ :=
  if b = 0 then none else some (a.tmod b)

/-- The `while` loop, from `current_ancestor = anc` and the minimum found so far. -/
def ancestorLoop (T : TaskTable Task) (curWeight : ℤ) : ℕ → Task → ℤ → ℤ → WalkResult
  | 0, _, _, _ => .running
  | fuel + 1, anc, minWeight, minPid =>
    if T.pid anc = 1 then .returned minPid
    else
      let anc := T.realParent anc
      -- the `continue`
      if T.weight anc = 0 then ancestorLoop T curWeight fuel anc minWeight minPid
      else
        match cmod curWeight (T.weight anc) with
        | none => .divideError
        | some r =>
          if r = 0 ∧ T.weight anc < minWeight then
            ancestorLoop T curWeight fuel anc (T.weight anc) (T.pid anc)
          else ancestorLoop T curWeight fuel anc minWeight minPid

/-- `sys_get_lightest_divisor_ancestor`, called by the task `t`. -/
def sysGetLightestDivisorAncestor (T : TaskTable Task) (t : Task) (fuel : ℕ) : WalkResult :=
  if T.pid t = 1 then .returned (T.pid t)
  else if T.weight t = 0 then .returned (T.pid t)
  else ancestorLoop T (T.weight t) fuel t (T.weight t) (T.pid t)

/-! ### `sys_get_siblings_sum` -/

/-- A `long` after an addition or a subtraction. -/
def toLong (x : ℤ) : ℤ :=
  x.bmod (2 ^ 64)

/-- An `int` after an addition. -/
def toInt (x : ℤ) : ℤ :=
  x.bmod (2 ^ 32)

/-- The body of `list_for_each`: the sum of the weights, and the number of tasks. -/
def addSibling (T : TaskTable Task) (acc : ℤ × ℤ) (sibling : Task) : ℤ × ℤ :=
  (toLong (acc.1 + T.weight sibling), toInt (acc.2 + 1))

/-- `sys_get_siblings_sum`, called by the task `t`. -/
def sysGetSiblingsSum (T : TaskTable Task) (t : Task) : ℤ :=
  if T.pid t = 0 ∨ T.pid t = 1 then eSrch
  else
    let acc := (T.children (T.realParent t)).foldl (addSibling T) (0, 0)
    let sumOfWeights := toLong (acc.1 - T.weight t)
    if acc.2 = 1 then eSrch else sumOfWeights

/-! ### Ancestors -/

/-- The `n`-th task on the chain of `real_parent` that starts at `t`. -/
def ancestor (T : TaskTable Task) (t : Task) (n : ℕ) : Task :=
  T.realParent^[n] t

section

variable {T : TaskTable Task} {t : Task}

@[simp] theorem ancestor_zero : ancestor T t 0 = t := rfl

theorem ancestor_succ (n : ℕ) : ancestor T t (n + 1) = T.realParent (ancestor T t n) :=
  Function.iterate_succ_apply' ..

theorem TaskTable.weight_nonneg (T : TaskTable Task) (t : Task) : 0 ≤ T.weight t :=
  (T.weight_range t).1

end

end Kernel
end OsHomework
