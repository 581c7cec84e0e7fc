import OsHomework.Kernel.Tasks
import Mathlib.Algebra.BigOperators.Group.List.Basic
import Mathlib.Algebra.Order.BigOperators.Group.List
import Mathlib.Data.Fin.VecNotation
import Mathlib.Data.Int.Interval

/-!
# The sum over the siblings

`sys_get_siblings_sum` adds up the weights on the list of children of the caller's
`real_parent`, subtracts the weight of the caller, and takes the count `1` for a list that
holds the caller alone. Both rest on the caller being on the list. The kernel keeps only
thread-group leaders there, and a call from another thread of the group
subtracts what was never added.

`sysGetSiblingsSum_eq` says what the loop leaves, with the wrapping of `long` and
`int`. The count cannot wrap, since pids are distinct and there are `2 ^ 31` of them
(`Family.length_children_le`). The two kinds of callers then differ in how the others on the list
are got from it (`Family.perm_others`, `Family.others_eq`).
-/

namespace OsHomework
namespace Kernel

variable {Task : Type}

/-- The children of the parent, without the caller. -/
def others [DecidableEq Task] (T : TaskTable Task) (t : Task) : List Task :=
  (T.children (T.realParent t)).filter (· ≠ t)

def weightSum (T : TaskTable Task) (l : List Task) : ℤ :=
  (l.map T.weight).sum

/-- What the call is for: the weights of the others, and `-ESRCH` if and only if there are none. -/
structure SiblingsCorrect [DecidableEq Task] (T : TaskTable Task) (t : Task) : Prop where
  esrch_iff : sysGetSiblingsSum T t = eSrch ↔ others T t = []
  sum_of_others : others T t ≠ [] →
    sysGetSiblingsSum T t = weightSum T (others T t) ∧ 0 ≤ sysGetSiblingsSum T t

/-- A table as the kernel keeps it. Pids are non-negative numbers of type `int` and no two
children of a task share one. Apart from the boot task, which is on no list, the children of a
task are the thread-group leaders whose `real_parent` it is. -/
structure Family (Task : Type) extends TaskTable Task where
  pid_range : ∀ t, 0 ≤ pid t ∧ pid t < 2 ^ 31
  pids_nodup : ∀ p, ((children p).map pid).Nodup
  mem_children : ∀ t p, pid t ≠ 0 → (t ∈ children p ↔ groupLeader t = t ∧ realParent t = p)

/-! ### The wrapping -/

section

variable {x : ℤ}

theorem toLong_lt (x : ℤ) : toLong x < 2 ^ 63 :=
  Int.bmod_lt (by decide)

theorem toLong_eq (hle : -2 ^ 63 ≤ x) (hlt : x < 2 ^ 63) : toLong x = x :=
  Int.bmod_eq_of_le hle hlt

/-- What a subtraction leaves is what it was taken from only if nothing was subtracted. -/
theorem toLong_sub_eq_iff {w : ℤ} (hx : 0 ≤ x) (hw : 0 ≤ w) (hw' : w < 2 ^ 63) :
    toLong (x - w) = x ↔ x < 2 ^ 63 ∧ w = 0 := by
  constructor
  · intro h
    -- the result of the subtraction fits, and so does `x`
    have hlt : x < 2 ^ 63 := h ▸ toLong_lt (x - w)
    rw [toLong_eq (by omega) (by omega)] at h
    exact ⟨hlt, by omega⟩
  · rintro ⟨hlt, rfl⟩
    rw [sub_zero]
    exact toLong_eq (by omega) hlt

end

section

variable {T : TaskTable Task} {t : Task}

@[simp] theorem weightSum_nil : weightSum T [] = 0 := rfl

theorem weightSum_nonneg (T : TaskTable Task) (l : List Task) : 0 ≤ weightSum T l := by
  apply List.sum_nonneg
  intro w hw
  obtain ⟨t, -, rfl⟩ := List.mem_map.mp hw
  exact T.weight_nonneg t

/-- **The loop**, from any sum and count. -/
theorem foldl_addSibling (T : TaskTable Task) (l : List Task) (s c : ℤ) :
    l.foldl (addSibling T) (toLong s, toInt c) =
      (toLong (s + weightSum T l), toInt (c + l.length)) := by
  induction l generalizing s c with
  | nil => simp [weightSum]
  | cons a l ih =>
    -- one turn adds the weight and counts the task, and both wrap
    have hadd : addSibling T (toLong s, toInt c) a = (toLong (s + T.weight a), toInt (c + 1)) := by
      simp only [addSibling, toLong, toInt, Int.bmod_add_bmod]
    have hsum : s + T.weight a + weightSum T l = s + weightSum T (a :: l) := by
      simp only [weightSum, List.map_cons, List.sum_cons, add_assoc]
    have hcount : c + 1 + (l.length : ℤ) = c + (a :: l).length := by
      rw [List.length_cons]
      push_cast
      rw [add_assoc, add_comm 1]
    calc (a :: l).foldl (addSibling T) (toLong s, toInt c)
        = l.foldl (addSibling T) (toLong (s + T.weight a), toInt (c + 1)) := by
          rw [List.foldl_cons, hadd]
      _ = (toLong (s + T.weight a + weightSum T l), toInt (c + 1 + l.length)) := ih ..
      _ = (toLong (s + weightSum T (a :: l)), toInt (c + (a :: l).length)) := by
          rw [hsum, hcount]

/-- **The call**, for a pid other than `0` and `1`. -/
theorem sysGetSiblingsSum_eq (h0 : T.pid t ≠ 0) (h1 : T.pid t ≠ 1) :
    sysGetSiblingsSum T t =
      if toInt (T.children (T.realParent t)).length = 1 then eSrch
      else toLong (weightSum T (T.children (T.realParent t)) - T.weight t) := by
  have hfold := foldl_addSibling T (T.children (T.realParent t)) 0 0
  -- the loop starts from zero
  have hstart : (toLong 0, toInt 0) = ((0, 0) : ℤ × ℤ) := rfl
  rw [hstart, zero_add, zero_add] at hfold
  simp only [sysGetSiblingsSum, h0, h1, or_self, if_false, hfold]
  simp only [toLong, Int.bmod_sub_bmod]

variable [DecidableEq Task]

theorem siblingsCorrect_of_nil (h : others T t = []) :
    SiblingsCorrect T t ↔ sysGetSiblingsSum T t = eSrch :=
  ⟨fun hright => hright.esrch_iff.mpr h,
    fun herr => ⟨iff_of_true herr h, fun hne => absurd h hne⟩⟩

/-- A sum of weights is not negative, and so is not taken for an error. -/
theorem siblingsCorrect_of_ne_nil (h : others T t ≠ []) :
    SiblingsCorrect T t ↔ sysGetSiblingsSum T t = weightSum T (others T t) := by
  constructor
  · intro hright
    exact (hright.sum_of_others h).1
  · intro hsum
    -- the sum is not `-ESRCH`, since it is not negative
    have hnonneg : 0 ≤ sysGetSiblingsSum T t := hsum ▸ weightSum_nonneg T (others T t)
    refine ⟨iff_of_false (fun herr => ?_) h, fun _ => ⟨hsum, hnonneg⟩⟩
    rw [herr] at hnonneg
    exact absurd hnonneg (by decide)

end

namespace Family

/-! ### The caller and the list -/

section

theorem children_nodup (F : Family Task) (p : Task) : (F.children p).Nodup :=
  (F.pids_nodup p).of_map

/-- There are no more children than pids. -/
theorem length_children_le (F : Family Task) (p : Task) : (F.children p).length ≤ 2 ^ 31 := by
  -- the pids of the children are distinct numbers below `2 ^ 31`
  have hsub : ((F.children p).map F.pid).toFinset ⊆ Finset.Ico 0 (2 ^ 31) := by
    intro x hx
    obtain ⟨u, -, rfl⟩ := List.mem_map.mp (List.mem_toFinset.mp hx)
    exact Finset.mem_Ico.mpr (F.pid_range u)
  have hcard := Finset.card_le_card hsub
  rw [List.toFinset_card_of_nodup (F.pids_nodup p), List.length_map, Int.card_Ico] at hcard
  exact hcard

/-- The count is `1` exactly for a list of one task. -/
theorem toInt_length_eq_one_iff (F : Family Task) (p : Task) :
    toInt (F.children p).length = 1 ↔ (F.children p).length = 1 := by
  -- the count of a list this short is its length
  have hle := F.length_children_le p
  unfold toInt
  rw [Int.bmod_eq_iff (by decide)]
  omega

variable [DecidableEq Task] {F : Family Task} {t : Task}

/-- A leader is on the list, once, next to the others. -/
theorem perm_others (h0 : F.pid t ≠ 0) (hlead : F.groupLeader t = t) :
    (F.children (F.realParent t)).Perm (t :: others F.toTaskTable t) := by
  -- a leader is a child of its parent
  have hmem : t ∈ F.children (F.realParent t) := (F.mem_children t _ h0).mpr ⟨hlead, rfl⟩
  have herase := (F.children_nodup (F.realParent t)).erase_eq_filter t
  have heq : others F.toTaskTable t = (F.children (F.realParent t)).erase t := by
    rw [herase]
    exact List.filter_congr fun u _ => by simp [bne, BEq.beq]
  rw [heq]
  exact List.perm_cons_erase hmem

/-- Another thread is not on the list. -/
theorem others_eq (h0 : F.pid t ≠ 0) (hlead : F.groupLeader t ≠ t) :
    others F.toTaskTable t = F.children (F.realParent t) := by
  apply List.filter_eq_self.mpr
  intro u hu
  apply decide_eq_true
  rintro rfl
  exact hlead ((F.mem_children u _ h0).mp hu).1

/-- The call of a leader. -/
theorem sysGetSiblingsSum_leader (h0 : F.pid t ≠ 0) (h1 : F.pid t ≠ 1)
    (hlead : F.groupLeader t = t) :
    sysGetSiblingsSum F.toTaskTable t =
      if others F.toTaskTable t = [] then eSrch
      else toLong (weightSum F.toTaskTable (others F.toTaskTable t)) := by
  have hperm := perm_others h0 hlead
  -- a list of one task is the caller alone
  have hlength : (F.children (F.realParent t)).length = 1 ↔ others F.toTaskTable t = [] := by
    rw [hperm.length_eq, List.length_cons, Nat.add_eq_right, List.length_eq_zero_iff]
  -- the weight that is subtracted is one that was added
  have hsum : weightSum F.toTaskTable (F.children (F.realParent t)) - F.weight t =
      weightSum F.toTaskTable (others F.toTaskTable t) := by
    unfold weightSum
    rw [(hperm.map F.weight).sum_eq, List.map_cons, List.sum_cons, add_sub_cancel_left]
  rw [sysGetSiblingsSum_eq h0 h1, hsum]
  simp only [toInt_length_eq_one_iff, hlength]

/-- The call of another thread. -/
theorem sysGetSiblingsSum_thread (h0 : F.pid t ≠ 0) (h1 : F.pid t ≠ 1)
    (hlead : F.groupLeader t ≠ t) :
    sysGetSiblingsSum F.toTaskTable t =
      if (others F.toTaskTable t).length = 1 then eSrch
      else toLong (weightSum F.toTaskTable (others F.toTaskTable t) - F.weight t) := by
  rw [sysGetSiblingsSum_eq h0 h1, others_eq h0 hlead]
  simp only [toInt_length_eq_one_iff]

/-! ### When the sum is right -/

theorem siblingsCorrect_leader_iff (h0 : F.pid t ≠ 0) (h1 : F.pid t ≠ 1)
    (hlead : F.groupLeader t = t) :
    SiblingsCorrect F.toTaskTable t ↔
      weightSum F.toTaskTable (others F.toTaskTable t) < 2 ^ 63 := by
  have hres := sysGetSiblingsSum_leader h0 h1 hlead
  by_cases hnil : others F.toTaskTable t = []
  · rw [if_pos hnil] at hres
    rw [siblingsCorrect_of_nil hnil, hnil, weightSum_nil]
    exact iff_of_true hres (by decide)
  · rw [if_neg hnil] at hres
    have hnonneg := weightSum_nonneg F.toTaskTable (others F.toTaskTable t)
    -- nothing else is subtracted, so that only the wrapping can go wrong
    have hsub := toLong_sub_eq_iff hnonneg (Int.le_refl 0) (by decide)
    rw [sub_zero] at hsub
    rw [siblingsCorrect_of_ne_nil hnil, hres, hsub]
    exact and_iff_left rfl

theorem siblingsCorrect_thread_iff (h0 : F.pid t ≠ 0) (h1 : F.pid t ≠ 1)
    (hlead : F.groupLeader t ≠ t) :
    SiblingsCorrect F.toTaskTable t ↔
      weightSum F.toTaskTable (others F.toTaskTable t) < 2 ^ 63 ∧
        (F.weight t = 0 ∧ 2 ≤ (others F.toTaskTable t).length ∨
          F.weight t = 3 ∧ others F.toTaskTable t = []) := by
  have hres := sysGetSiblingsSum_thread h0 h1 hlead
  obtain ⟨hw, hw'⟩ := F.weight_range t
  -- on the number of others, which is the number that the code counts
  match hothers : others F.toTaskTable t with
  | [] =>
    -- no child at all: the caller gets minus its own weight
    rw [hothers, if_neg (by simp), weightSum_nil, toLong_eq (by omega) (by omega)] at hres
    rw [siblingsCorrect_of_nil hothers, hres, weightSum_nil]
    unfold eSrch
    simp
  | [u] =>
    -- one child is taken for the caller, which is an error for a sum that exists
    rw [hothers, if_pos List.length_singleton] at hres
    have hne : others F.toTaskTable t ≠ [] := by rw [hothers]; exact List.cons_ne_nil _ _
    have hwrong : ¬ SiblingsCorrect F.toTaskTable t := fun h => hne (h.esrch_iff.mp hres)
    apply iff_of_false hwrong
    simp
  | u :: v :: l =>
    -- two children or more: right only if the weight that is subtracted is zero
    have hne : others F.toTaskTable t ≠ [] := by rw [hothers]; exact List.cons_ne_nil _ _
    rw [hothers, if_neg (by simp)] at hres
    have hnonneg := weightSum_nonneg F.toTaskTable (u :: v :: l)
    rw [siblingsCorrect_of_ne_nil hne, hres, hothers, toLong_sub_eq_iff hnonneg hw hw']
    simp

/-- **When the sum over the siblings is right**: the sum fits a `long`, and the caller is a
thread-group leader. Of the other threads, those of weight `0` whose parent has two or more
children get the right sum as well, and those of weight `3` whose parent has none are told the
number that `-ESRCH` is. -/
theorem siblings_sum_iff (F : Family Task) (t : Task) (h0 : F.pid t ≠ 0) (h1 : F.pid t ≠ 1) :
    SiblingsCorrect F.toTaskTable t ↔
      weightSum F.toTaskTable (others F.toTaskTable t) < 2 ^ 63 ∧
        (F.groupLeader t = t ∨
          F.weight t = 0 ∧ 2 ≤ (F.children (F.realParent t)).length ∨
          F.weight t = 3 ∧ F.children (F.realParent t) = []) := by
  by_cases hlead : F.groupLeader t = t
  · rw [siblingsCorrect_leader_iff h0 h1 hlead]
    simp only [hlead, true_or, and_true]
  · rw [siblingsCorrect_thread_iff h0 h1 hlead, ← others_eq h0 hlead]
    simp only [hlead, false_or]

/-- Two processes under `init`, the first of them with a second thread. -/
def twoProcesses : Family (Fin 5) where
  pid := ![0, 1, 5, 6, 7]
  weight := ![0, 0, 3, 9, 5]
  realParent := ![0, 0, 1, 1, 1]
  groupLeader := ![0, 1, 2, 2, 4]
  children := ![[1], [2, 4], [], [], []]
  weight_range := by decide
  pid_range := by decide
  pids_nodup := by decide
  mem_children := by decide

/-- The second process gets the weight of the first. -/
theorem siblings_sum_of_second :
    twoProcesses.pid 4 ≠ 0 ∧ twoProcesses.pid 4 ≠ 1 ∧
      SiblingsCorrect twoProcesses.toTaskTable 4 :=
  ⟨by decide, by decide,
    (siblings_sum_iff twoProcesses 4 (by decide) (by decide)).mpr ⟨by decide, Or.inl rfl⟩⟩

/-- The second thread of the first process gets a negative number, which is `-EPERM`. -/
theorem thread_gets_error :
    twoProcesses.pid 3 ≠ 0 ∧ twoProcesses.pid 3 ≠ 1 ∧
      sysGetSiblingsSum twoProcesses.toTaskTable 3 = -1 ∧
      others twoProcesses.toTaskTable 3 = [2, 4] ∧
      ¬ SiblingsCorrect twoProcesses.toTaskTable 3 := by
  have hres : sysGetSiblingsSum twoProcesses.toTaskTable 3 = -1 := by decide
  refine ⟨by decide, by decide, hres, by decide, fun h => ?_⟩
  have hnonneg := (h.sum_of_others (by decide)).2
  rw [hres] at hnonneg
  exact absurd hnonneg (by decide)

/-- Weights that `sys_set_weight` has set do not overflow the sum. -/
theorem weightSum_others_lt (hint : ∀ u, F.weight u < 2 ^ 31) :
    weightSum F.toTaskTable (others F.toTaskTable t) < 2 ^ 63 := by
  have hlength : (others F.toTaskTable t).length ≤ 2 ^ 31 :=
    (List.length_filter_le ..).trans (F.length_children_le _)
  -- `2 ^ 31` weights below `2 ^ 31`
  have hsum : weightSum F.toTaskTable (others F.toTaskTable t) ≤
      (others F.toTaskTable t).length • (2 ^ 31 - 1) := by
    unfold weightSum
    rw [← List.length_map F.weight]
    apply List.sum_le_card_nsmul
    intro w hw
    obtain ⟨u, -, rfl⟩ := List.mem_map.mp hw
    exact Int.le_sub_one_of_lt (hint u)
  rw [nsmul_eq_mul] at hsum
  omega

end

end Family

end Kernel
end OsHomework
