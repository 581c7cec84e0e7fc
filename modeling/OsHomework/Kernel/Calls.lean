import OsHomework.Lib.Transition
import OsHomework.Kernel.Siblings
import Mathlib.Tactic

/-!
# The calls from user space

The wrappers of `hw2_test.cxx` reach the functions of `hw2.c` by their numbers in
`syscall_64.tbl`. In between, `syscall` of the C library turns the results from `-4095` to `-1`
into `-1`, and each wrapper returns the `long` as an `int`.

Any number of tasks make these calls, in any order. A weight is then a register of its task: it
holds what the task has set last with success, whatever the others do in the meantime, and
`get_weight` answers it (`weight_register`). The sum over the siblings is a sum over these
registers, up to the conversion to `int` (`siblings_sum_answer`).
-/

namespace OsHomework
namespace Kernel

variable {Task : Type} [DecidableEq Task]

/-- The entries of `syscall_64.tbl` for `hw2.c`. -/
inductive Entry
  | hello
  | setWeight
  | getWeight
  | getSiblingsSum
  | getLightestDivisorAncestor
  deriving DecidableEq, Repr

/-- `syscall_64.tbl`, as far as it is about `hw2.c`. -/
def sysCallTable : ℕ → Option Entry
  | 333 => some .hello
  | 334 => some .setWeight
  | 335 => some .getWeight
  | 336 => some .getSiblingsSum
  | 337 => some .getLightestDivisorAncestor
  | _ => none

/-- The function of an entry, called by the task `t`: the tasks afterwards and the result. -/
def Entry.run (T : TaskTable Task) (t : Task) (arg : Int32) (fuel : ℕ) :
    Entry → TaskTable Task × WalkResult
  | .hello => (T, .returned 0)
  | .setWeight => ((sysSetWeight T t arg).1, .returned (sysSetWeight T t arg).2)
  | .getWeight => (T, .returned (sysGetWeight T t))
  | .getSiblingsSum => (T, .returned (sysGetSiblingsSum T t))
  | .getLightestDivisorAncestor => (T, sysGetLightestDivisorAncestor T t fuel)

/-- What `syscall` of the C library makes of a result: the numbers of errors become `-1`. -/
def syscallReturn (r : ℤ) : ℤ :=
  if -4095 ≤ r ∧ r < 0 then -1 else r

/-- `long r = syscall(nr, arg); return r;` in a wrapper that returns an `int`. There is no answer
if the number is that of another call, or the function does not return. -/
def wrapper (nr : ℕ) (T : TaskTable Task) (t : Task) (arg : Int32) (fuel : ℕ) :
    Option (TaskTable Task × Int32) :=
  match sysCallTable nr with
  | none => none
  | some e =>
    match e.run T t arg fuel with
    | (T', .returned r) => some (T', Int32.ofInt (syscallReturn r))
    | _ => none

/-- A call of one of the four wrappers. -/
inductive Call
  | setWeight (weight : Int32)
  | getWeight
  | getSiblingsSum
  | getLightestDivisorAncestor
  deriving DecidableEq, Repr

/-- `hw2_test.cxx`. -/
def Call.run (T : TaskTable Task) (t : Task) (fuel : ℕ) :
    Call → Option (TaskTable Task × Int32)
  | .setWeight weight => wrapper 334 T t weight fuel
  | .getWeight => wrapper 335 T t 0 fuel
  | .getSiblingsSum => wrapper 336 T t 0 fuel
  | .getLightestDivisorAncestor => wrapper 337 T t 0 fuel

/-- One call, with its answer. -/
structure Event (Task : Type) where
  caller : Task
  call : Call
  fuel : ℕ
  answer : Int32

/-- Tasks that call the wrappers in any order. `INIT_TASK` has the weight `0`. -/
def users (Task : Type) [DecidableEq Task] : System (TaskTable Task) (Event Task) where
  init T := ∀ t, T.weight t = 0
  step T e T' := e.call.run T e.caller e.fuel = some (T', e.answer)

/-- The weight that the event sets for the task `t`, if it sets one. -/
def Event.sets (t : Task) (e : Event Task) : Option Int32 :=
  match e.call with
  | .setWeight weight => if e.caller = t ∧ 0 ≤ weight.toInt then some weight else none
  | _ => none

/-- What the task `t` has set last. -/
def lastSet (es : List (Event Task)) (t : Task) : Option Int32 :=
  (es.filterMap (Event.sets t)).getLast?

/-- The register of the task `t`, from its value `weight` at the start. -/
def register (es : List (Event Task)) (t : Task) (weight : ℤ) : ℤ :=
  match lastSet es t with
  | none => weight
  | some w => w.toInt

/-! ### One call -/

section

variable {T T' T'' : TaskTable Task} {t : Task} {fuel : ℕ} {r : Int32} {e : Event Task}
  {es : List (Event Task)}

theorem run_setWeight (T : TaskTable Task) (t : Task) (fuel : ℕ) (weight : Int32) :
    (Call.setWeight weight).run T t fuel = some ((sysSetWeight T t weight).1,
      Int32.ofInt (syscallReturn (sysSetWeight T t weight).2)) := rfl

theorem run_getWeight (T : TaskTable Task) (t : Task) (fuel : ℕ) :
    Call.getWeight.run T t fuel = some (T, Int32.ofInt (syscallReturn (T.weight t))) := rfl

theorem run_getSiblingsSum (T : TaskTable Task) (t : Task) (fuel : ℕ) :
    Call.getSiblingsSum.run T t fuel =
      some (T, Int32.ofInt (syscallReturn (sysGetSiblingsSum T t))) := rfl

theorem run_getLightestDivisorAncestor
    (h : Call.getLightestDivisorAncestor.run T t fuel = some (T', r)) : T' = T := by
  change (match (T, sysGetLightestDivisorAncestor T t fuel) with
    | (T', .returned r) => some (T', Int32.ofInt (syscallReturn r))
    | _ => none) = some (T', r) at h
  cases hwalk : sysGetLightestDivisorAncestor T t fuel with
  -- a walk that does not return answers nothing
  | running | divideError =>
    rw [hwalk] at h
    cases h
  | returned pid =>
    rw [hwalk] at h
    exact (Prod.mk.inj (Option.some.inj h)).1.symm

/-- Only the weights may differ. -/
structure SameTree (T T' : TaskTable Task) : Prop where
  pid : T'.pid = T.pid
  realParent : T'.realParent = T.realParent
  groupLeader : T'.groupLeader = T.groupLeader
  children : T'.children = T.children

theorem sameTree_sysSetWeight (T : TaskTable Task) (t : Task) (weight : Int32) :
    SameTree T (sysSetWeight T t weight).1 := by
  unfold sysSetWeight
  split
  · exact ⟨rfl, rfl, rfl, rfl⟩
  · exact ⟨rfl, rfl, rfl, rfl⟩

theorem sets_setWeight (t caller : Task) (weight : Int32) (fuel : ℕ) (answer : Int32) :
    Event.sets t ⟨caller, .setWeight weight, fuel, answer⟩ =
      if caller = t ∧ 0 ≤ weight.toInt then some weight else none := rfl

/-- **Step lemma**: a call sets the weight of its caller or nothing. -/
theorem step_cases (h : (users Task).step T e T') :
    SameTree T T' ∧ ∀ t, T'.weight t = match e.sets t with
      | none => T.weight t
      | some w => w.toInt := by
  obtain ⟨caller, call, fuel, answer⟩ := e
  change call.run T caller fuel = some (T', answer) at h
  cases call with
  | setWeight weight =>
    rw [run_setWeight] at h
    obtain ⟨rfl, -⟩ := Prod.mk.inj (Option.some.inj h)
    refine ⟨sameTree_sysSetWeight T caller weight, fun t => ?_⟩
    rw [sets_setWeight]
    -- a negative weight is refused, and nothing is set
    by_cases hneg : weight.toInt < 0
    · have hsame : sysSetWeight T caller weight = (T, eInval) := dif_pos hneg
      rw [hsame, if_neg fun hset => not_lt.mpr hset.2 hneg]
    · obtain ⟨-, -, hneg'⟩ | ⟨-, hself, hrest⟩ := sysSetWeight_cases T caller weight
      · exact absurd hneg' hneg
      · -- the weight of the caller is set and that of no other task
        by_cases hcaller : caller = t
        · rw [if_pos ⟨hcaller, not_lt.mp hneg⟩, ← hcaller]
          exact hself
        · rw [if_neg fun hset => hcaller hset.1]
          exact hrest t fun heq => hcaller heq.symm
  | getWeight =>
    rw [run_getWeight] at h
    obtain ⟨rfl, -⟩ := Prod.mk.inj (Option.some.inj h)
    exact ⟨⟨rfl, rfl, rfl, rfl⟩, fun _ => rfl⟩
  | getSiblingsSum =>
    rw [run_getSiblingsSum] at h
    obtain ⟨rfl, -⟩ := Prod.mk.inj (Option.some.inj h)
    exact ⟨⟨rfl, rfl, rfl, rfl⟩, fun _ => rfl⟩
  | getLightestDivisorAncestor =>
    -- the walk only reads
    obtain rfl := run_getLightestDivisorAncestor h
    exact ⟨⟨rfl, rfl, rfl, rfl⟩, fun _ => rfl⟩

/-! ### Whole runs -/

omit [DecidableEq Task] in
theorem SameTree.trans (h : SameTree T T') (h' : SameTree T' T'') : SameTree T T'' :=
  ⟨h'.pid.trans h.pid, h'.realParent.trans h.realParent, h'.groupLeader.trans h.groupLeader,
    h'.children.trans h.children⟩

theorem register_snoc (es : List (Event Task)) (e : Event Task) (t : Task) (weight : ℤ) :
    register (es ++ [e]) t weight = match e.sets t with
      | none => register es t weight
      | some w => w.toInt := by
  unfold register lastSet
  rw [List.filterMap_append]
  -- an event either sets nothing for `t`, or is the last to set it
  cases hsets : e.sets t with
  | none => rw [List.filterMap_cons_none hsets, List.filterMap_nil, List.append_nil]
  | some w =>
    rw [List.filterMap_cons_some hsets, List.filterMap_nil, List.getLast?_append_cons]
    rfl

/-- **Run lemma**: the tree stays, and each weight is the register of its task. -/
theorem run_registers (h : (users Task).Run T es T') :
    SameTree T T' ∧ ∀ t, T'.weight t = register es t (T.weight t) := by
  induction h with
  | nil => exact ⟨⟨rfl, rfl, rfl, rfl⟩, fun _ => rfl⟩
  | @snoc es T' T'' e _ hst ih =>
    obtain ⟨htree, hweight⟩ := ih
    obtain ⟨htree', hweight'⟩ := step_cases hst
    refine ⟨htree.trans htree', fun t => ?_⟩
    -- what the last event sets is what the register holds then
    rw [hweight' t, register_snoc, hweight t]

/-- A weight that was set is an `int`. -/
theorem register_lt {weight : ℤ} (h : weight < 2 ^ 31) (es : List (Event Task)) (t : Task) :
    register es t weight < 2 ^ 31 := by
  unfold register
  split
  · exact h
  · next w _ => exact w.toInt_lt

theorem syscallReturn_of_nonneg {x : ℤ} (h : 0 ≤ x) : syscallReturn x = x :=
  if_neg fun hneg => not_lt.mpr h hneg.2

/-- **Weights are registers.** After any calls by any tasks in any order, the tree of the tasks is
what it was, `get_weight` answers what its caller has set last with success or else the weight of
the start, and `set_weight` answers `-1` for a negative weight and `0` otherwise. -/
theorem weight_register (hint : ∀ t, T.weight t < 2 ^ 31) (hrun : (users Task).Run T es T')
    (hstep : (users Task).step T' e T'') :
    SameTree T T' ∧
      (e.call = .getWeight → e.answer.toInt = register es e.caller (T.weight e.caller)) ∧
      (∀ w, e.call = .setWeight w → e.answer = if w.toInt < 0 then -1 else 0) := by
  obtain ⟨htree, hweight⟩ := run_registers hrun
  obtain ⟨caller, call, fuel, answer⟩ := e
  change call.run T' caller fuel = some (T'', answer) at hstep
  refine ⟨htree, ?_, ?_⟩
  · rintro rfl
    -- what `get_weight` answers is the weight in the tree
    rw [run_getWeight] at hstep
    obtain ⟨-, rfl⟩ := Prod.mk.inj (Option.some.inj hstep)
    dsimp only
    have hlt := register_lt (hint caller) es caller
    -- a weight is no error number, and the `int` of the wrapper does not cut it
    have hge := T'.weight_nonneg caller
    rw [hweight caller] at hge ⊢
    rw [syscallReturn_of_nonneg hge]
    exact Int32.toInt_ofInt_of_le (by omega) hlt
  · rintro w rfl
    rw [run_setWeight] at hstep
    obtain ⟨-, rfl⟩ := Prod.mk.inj (Option.some.inj hstep)
    dsimp only
    split
    · next hneg =>
      have hres : sysSetWeight T' caller w = (T', eInval) := dif_pos hneg
      rw [hres]
      rfl
    · next hpos =>
      -- a weight that is not negative is set
      obtain ⟨-, -, hneg⟩ | ⟨hzero, -⟩ := sysSetWeight_cases T' caller w
      · exact absurd hneg hpos
      · rw [hzero]
        rfl

end

/-! ### The sum over the siblings -/

section

variable {F : Family Task} {T' T'' : TaskTable Task} {e : Event Task} {es : List (Event Task)}

omit [DecidableEq Task] in
/-- What the kernel keeps of the tree does not depend on the weights. -/
theorem SameTree.exists_family (h : SameTree F.toTaskTable T') :
    ∃ F' : Family Task, F'.toTaskTable = T' := by
  obtain ⟨hpid, hparent, hleader, hchildren⟩ := h
  -- each condition on a family is about fields that stay
  have hrange : ∀ t, 0 ≤ T'.pid t ∧ T'.pid t < 2 ^ 31 := by
    rw [hpid]
    exact F.pid_range
  have hnodup : ∀ p, ((T'.children p).map T'.pid).Nodup := by
    rw [hpid, hchildren]
    exact F.pids_nodup
  have hmem : ∀ t p, T'.pid t ≠ 0 →
      (t ∈ T'.children p ↔ T'.groupLeader t = t ∧ T'.realParent t = p) := by
    rw [hpid, hchildren, hleader, hparent]
    exact F.mem_children
  exact ⟨{ T' with pid_range := hrange, pids_nodup := hnodup, mem_children := hmem }, rfl⟩

/-- The others next to `t`, with what they have set last. -/
def registerSum (F : Family Task) (es : List (Event Task)) (t : Task) : ℤ :=
  ((others F.toTaskTable t).map fun u => register es u (F.weight u)).sum

theorem weightSum_of_run (h : (users Task).Run F.toTaskTable es T') (t : Task) :
    others T' t = others F.toTaskTable t ∧ weightSum T' (others T' t) = registerSum F es t := by
  obtain ⟨htree, hweight⟩ := run_registers h
  have hothers : others T' t = others F.toTaskTable t := by
    unfold others
    -- who the siblings are is read off the tree
    rw [htree.children, htree.realParent]
  refine ⟨hothers, ?_⟩
  unfold weightSum registerSum
  rw [hothers]
  exact congrArg List.sum (List.map_congr_left fun u _ => hweight u)

/-- What the kernel answers a leader after a run. -/
theorem sysGetSiblingsSum_of_run (hint : ∀ t, F.weight t < 2 ^ 31)
    (h : (users Task).Run F.toTaskTable es T') {t : Task} (hlead : F.groupLeader t = t)
    (h0 : F.pid t ≠ 0) (h1 : F.pid t ≠ 1) :
    sysGetSiblingsSum T' t =
      if others F.toTaskTable t = [] then eSrch else registerSum F es t := by
  obtain ⟨htree, hweight⟩ := run_registers h
  obtain ⟨hothers, hsum⟩ := weightSum_of_run h t
  obtain ⟨F', rfl⟩ := htree.exists_family
  -- the sum fits into the `long` of the kernel
  have hlt : weightSum F'.toTaskTable (others F'.toTaskTable t) < 2 ^ 63 := by
    refine Family.weightSum_others_lt fun u => ?_
    rw [hweight u]
    exact register_lt (hint u) es u
  have hnonneg := weightSum_nonneg F'.toTaskTable (others F'.toTaskTable t)
  rw [Family.sysGetSiblingsSum_leader (by rwa [htree.pid]) (by rwa [htree.pid])
    (by rwa [htree.groupLeader]), toLong_eq (by omega) hlt, hothers, ← hsum, hothers]

theorem toInt_ofInt_eq_iff {x : ℤ} (h : 0 ≤ x) : (Int32.ofInt x).toInt = x ↔ x < 2 ^ 31 := by
  constructor
  · intro heq
    rw [← heq]
    exact Int32.toInt_lt _
  · exact Int32.toInt_ofInt_of_le (by omega)

/-- **The sum over the siblings, from user space.** After any calls by any tasks in any order, a
leader that asks for the sum gets `-1` if it has no siblings or is one of the first two tasks.
Otherwise it gets the sum of what its siblings have set last, as an `int`, which is this sum exactly
if it is below `2 ^ 31`. -/
theorem siblings_sum_answer (hint : ∀ t, F.weight t < 2 ^ 31)
    (hrun : (users Task).Run F.toTaskTable es T') (hstep : (users Task).step T' e T'')
    (hcall : e.call = .getSiblingsSum) (hlead : F.groupLeader e.caller = e.caller) :
    (F.pid e.caller = 0 ∨ F.pid e.caller = 1 ∨ others F.toTaskTable e.caller = [] →
        e.answer = -1) ∧
      (F.pid e.caller ≠ 0 → F.pid e.caller ≠ 1 → others F.toTaskTable e.caller ≠ [] →
        e.answer = Int32.ofInt (registerSum F es e.caller) ∧
          (e.answer.toInt = registerSum F es e.caller ↔ registerSum F es e.caller < 2 ^ 31)) := by
  obtain ⟨caller, call, fuel, answer⟩ := e
  dsimp only at hcall hlead ⊢
  subst hcall
  change Call.getSiblingsSum.run T' caller fuel = some (T'', answer) at hstep
  rw [run_getSiblingsSum] at hstep
  obtain ⟨-, hanswer⟩ := Prod.mk.inj (Option.some.inj hstep)
  have hpid : T'.pid = F.pid := (run_registers hrun).1.pid
  have hsum := sysGetSiblingsSum_of_run hint hrun hlead
  subst hanswer
  constructor
  · intro hnone
    have herror : sysGetSiblingsSum T' caller = eSrch := by
      by_cases hfirst : F.pid caller = 0 ∨ F.pid caller = 1
      · -- the first two tasks are turned away before the list is read
        rw [← hpid] at hfirst
        exact if_pos hfirst
      · -- an empty list is an error as well
        obtain ⟨h0, h1⟩ := not_or.mp hfirst
        rw [hsum h0 h1, if_pos ((hnone.resolve_left h0).resolve_left h1)]
    rw [herror]
    rfl
  · intro h0 h1 hsome
    -- a sum of weights is not taken for an error number
    have hnonneg : 0 ≤ registerSum F es caller := by
      rw [← (weightSum_of_run hrun caller).2]
      exact weightSum_nonneg _ _
    rw [hsum h0 h1, if_neg hsome, syscallReturn_of_nonneg hnonneg]
    exact ⟨rfl, toInt_ofInt_eq_iff hnonneg⟩

end

theorem two_lt_five : 2 < 5 := by decide

/-- The first process of `twoProcesses` sets its weight to `7`. -/
def setSeven : Event (Fin 5) := ⟨⟨2, two_lt_five⟩, .setWeight 7, 0, 0⟩

/-- `twoProcesses` after that. -/
def afterSeven : TaskTable (Fin 5) :=
  (sysSetWeight Family.twoProcesses.toTaskTable setSeven.caller 7).1

theorem run_setSeven :
    (users (Fin 5)).Run Family.twoProcesses.toTaskTable [setSeven] afterSeven :=
  .snoc .nil rfl

theorem weight_register_seven :
    (users (Fin 5)).step afterSeven ⟨2, .getWeight, 0, 7⟩ afterSeven ∧
      (7 : Int32).toInt = register [setSeven] 2 (Family.twoProcesses.weight 2) := by
  have hstep : (users (Fin 5)).step afterSeven ⟨2, .getWeight, 0, 7⟩ afterSeven := rfl
  exact ⟨hstep, (weight_register (by decide) run_setSeven hstep).2.1 rfl⟩

/-- The second process asks for the sum. -/
theorem siblings_sum_answer_seven :
    (users (Fin 5)).step afterSeven ⟨4, .getSiblingsSum, 0, 7⟩ afterSeven ∧
      registerSum Family.twoProcesses [setSeven] 4 = 7 ∧
      (7 : Int32) = Int32.ofInt (registerSum Family.twoProcesses [setSeven] 4) := by
  have hstep : (users (Fin 5)).step afterSeven ⟨4, .getSiblingsSum, 0, 7⟩ afterSeven := rfl
  have hanswer := siblings_sum_answer (by decide) run_setSeven hstep rfl rfl
  exact ⟨hstep, rfl, (hanswer.2 (by decide) (by decide) (by decide)).1⟩

end Kernel
end OsHomework
