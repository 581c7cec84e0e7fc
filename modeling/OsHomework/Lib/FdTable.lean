import Mathlib.Data.Nat.Find
import Mathlib.Data.Set.Basic
import Mathlib.Tactic

/-!
# Descriptor tables

The table a process keeps of its open files: a number refers to an open file or is
free, and only finitely many are taken. `open` and `dup` take the lowest free
number (`lowestFree`), `dup2` a given one, `close` frees one; each of them may be
refused, which the caller passes in as the answer of the call.

The lemmas say which descriptors are open after a call (`mem_openFds_install`,
`mem_openFds_release`), which stay open whatever the answer is
(`openFds_subset_dup2`, `mem_openFds_close`), and that a descriptor opened and
released again leaves no trace (`file_release_install`). A table extends another one
when the descriptors that were open refer to the same files (`Extends`).
-/

namespace OsHomework

/-- A descriptor table: finitely many numbers refer to an open file. -/
structure FdTable (File : Type) where
  file : ℕ → Option File
  limit : ℕ
  /-- No descriptor from `limit` on is open. -/
  file_eq_none : ∀ fd, limit ≤ fd → file fd = none

/-- The answer of `close`. A call that reports an error may have released the
descriptor all the same. -/
inductive CloseAnswer
  | closed
  | failedReleased
  | failedKept
  deriving DecidableEq, Repr

namespace FdTable

variable {File : Type}

/-- The open descriptors. -/
def openFds (t : FdTable File) : Set ℕ := {fd | (t.file fd).isSome}

theorem exists_free (t : FdTable File) : ∃ fd, t.file fd = none :=
  ⟨t.limit, t.file_eq_none _ le_rfl⟩

/-- The number `open` and `dup` answer. -/
def lowestFree (t : FdTable File) : ℕ := Nat.find t.exists_free

/-- `fd` refers to `f` from now on. -/
def install (fd : ℕ) (f : File) (t : FdTable File) : FdTable File where
  file := Function.update t.file fd (some f)
  limit := max t.limit (fd + 1)
  file_eq_none i hi := by
    rw [Function.update_of_ne (by omega)]
    exact t.file_eq_none i (by omega)

/-- `fd` is free from now on. -/
def release (fd : ℕ) (t : FdTable File) : FdTable File where
  file := Function.update t.file fd none
  limit := t.limit
  file_eq_none i hi := by
    by_cases h : i = fd
    · rw [h, Function.update_self]
    · rw [Function.update_of_ne h]
      exact t.file_eq_none i hi

/-- `dup(oldfd)`, with `none` for `-1`. A descriptor that is not open cannot be
duplicated, whatever the system answers otherwise. -/
def dup (ok : Bool) (oldfd : ℕ) (t : FdTable File) : Option ℕ × FdTable File :=
  match ok, t.file oldfd with
  | true, some f => (some t.lowestFree, t.install t.lowestFree f)
  | _, _ => (none, t)

/-- `dup2(oldfd, newfd)`, with `false` for `-1`. -/
def dup2 (ok : Bool) (oldfd newfd : ℕ) (t : FdTable File) : Bool × FdTable File :=
  match ok, t.file oldfd with
  | true, some f => (true, t.install newfd f)
  | _, _ => (false, t)

/-- `close(fd)`, with `false` for `-1`. -/
def close (answer : CloseAnswer) (fd : ℕ) (t : FdTable File) : Bool × FdTable File :=
  match answer with
  | .closed => (true, t.release fd)
  | .failedReleased => (false, t.release fd)
  | .failedKept => (false, t)

/-! ### What the calls do to the set of open descriptors -/

variable {t : FdTable File} {fd x : ℕ} {f : File}

theorem mem_openFds : x ∈ t.openFds ↔ (t.file x).isSome := Iff.rfl

theorem mem_openFds_install : x ∈ (t.install fd f).openFds ↔ x = fd ∨ x ∈ t.openFds := by
  simp only [mem_openFds, install]
  by_cases h : x = fd
  · simp [h]
  · simp [h]

theorem mem_openFds_release : x ∈ (t.release fd).openFds ↔ x ≠ fd ∧ x ∈ t.openFds := by
  simp only [mem_openFds, release]
  by_cases h : x = fd
  · simp [h]
  · simp [h]

theorem file_lowestFree (t : FdTable File) : t.file t.lowestFree = none := by
  unfold lowestFree
  exact Nat.find_spec t.exists_free

theorem lowestFree_le (h : t.file x = none) : t.lowestFree ≤ x := by
  unfold lowestFree
  exact Nat.find_min' t.exists_free h

theorem lowestFree_notMem (t : FdTable File) : t.lowestFree ∉ t.openFds := by
  rw [mem_openFds, file_lowestFree]
  simp

/-- A descriptor that was opened and released again has left no trace. -/
theorem file_release_install (h : t.file fd = none) :
    ((t.install fd f).release fd).file = t.file := by
  ext1 x
  simp only [install, release]
  by_cases hx : x = fd
  · rw [hx, Function.update_self, h]
  · rw [Function.update_of_ne hx, Function.update_of_ne hx]

/-- `dup` after `open` fails when it is refused or when neither `0` nor `1` was open: then `open`
has answered `0` and `1` refers to nothing. -/
theorem dup_install_fails_iff {ok : Bool} :
    ((t.install t.lowestFree f).dup ok 1).1 = none ↔
      ok = false ∨ t.file 0 = none ∧ t.file 1 = none := by
  have hlow : (t.install t.lowestFree f).file 1 = none ↔ t.file 0 = none ∧ t.file 1 = none := by
    simp only [install]
    by_cases h : 1 = t.lowestFree
    · -- `1` is the lowest free number, so `0` is taken
      have h0 : t.file 0 ≠ none := fun h0 => by
        have := lowestFree_le h0
        omega
      simp [← h, h0]
    · rw [Function.update_of_ne h]
      refine ⟨fun h1 => ⟨?_, h1⟩, And.right⟩
      -- `1` is free and not the lowest free number, so that is `0`
      have hle := lowestFree_le h1
      have hzero : t.lowestFree = 0 := by omega
      rw [← hzero]
      exact t.file_lowestFree
  rw [← hlow]
  unfold dup
  cases ok with
  | false => simp
  | true => cases (t.install t.lowestFree f).file 1 <;> simp

/-- A successful `dup` answers a descriptor that was free, and opens it. -/
theorem dup_eq_some {ok : Bool} {oldfd newfd : ℕ} (h : (t.dup ok oldfd).1 = some newfd) :
    newfd ∉ t.openFds ∧ newfd ∈ (t.dup ok oldfd).2.openFds := by
  unfold dup at h ⊢
  split at h
  · obtain rfl : t.lowestFree = newfd := by simpa using h
    exact ⟨t.lowestFree_notMem, mem_openFds_install.mpr (Or.inl rfl)⟩
  · simp at h

/-- A failed `dup` changes nothing. -/
theorem dup_eq_none {ok : Bool} {oldfd : ℕ} (h : (t.dup ok oldfd).1 = none) :
    (t.dup ok oldfd).2 = t := by
  unfold dup at h ⊢
  split at h
  · simp at h
  · rfl

theorem openFds_subset_dup2 (ok : Bool) (oldfd newfd : ℕ) :
    t.openFds ⊆ (t.dup2 ok oldfd newfd).2.openFds := by
  intro x hx
  unfold dup2
  split
  · exact mem_openFds_install.mpr (Or.inr hx)
  · exact hx

/-- `close` keeps every other descriptor open. -/
theorem mem_openFds_close (answer : CloseAnswer) (hx : x ∈ t.openFds) (hne : x ≠ fd) :
    x ∈ (t.close answer fd).2.openFds := by
  cases answer with
  | closed | failedReleased => exact mem_openFds_release.mpr ⟨hne, hx⟩
  | failedKept => exact hx

/-! ### What the open descriptors refer to -/

theorem file_install_self : (t.install fd f).file fd = some f := Function.update_self ..

theorem file_install_of_ne (h : x ≠ fd) : (t.install fd f).file x = t.file x :=
  Function.update_of_ne h ..

theorem file_release_of_ne (h : x ≠ fd) : (t.release fd).file x = t.file x :=
  Function.update_of_ne h ..

theorem file_close_of_ne (answer : CloseAnswer) (h : x ≠ fd) :
    (t.close answer fd).2.file x = t.file x := by
  cases answer with
  | closed | failedReleased => exact file_release_of_ne h
  | failedKept => exact Eq.refl _

variable {t' t'' : FdTable File}

/-- Every open descriptor of `t` refers to the same file in `t'`. -/
def Extends (t t' : FdTable File) : Prop := ∀ x ∈ t.openFds, t'.file x = t.file x

theorem Extends.rfl : t.Extends t := fun _ _ => Eq.refl _

theorem Extends.mem (h : t.Extends t') (hx : x ∈ t.openFds) : x ∈ t'.openFds := by
  rw [mem_openFds, h x hx]
  exact hx

theorem Extends.trans (h : t.Extends t') (h' : t'.Extends t'') : t.Extends t'' := by
  intro x hx
  calc t''.file x = t'.file x := h' x (h.mem hx)
    _ = t.file x := h x hx

/-- A free descriptor may be taken. -/
theorem Extends.install (h : t.Extends t') (hfd : fd ∉ t.openFds) :
    t.Extends (t'.install fd f) := by
  intro x hx
  have hne : x ≠ fd := fun heq => hfd (heq ▸ hx)
  rw [file_install_of_ne hne]
  exact h x hx

/-- … and closed again, whatever `close` answers. -/
theorem Extends.close (h : t.Extends t') (answer : CloseAnswer) (hfd : fd ∉ t.openFds) :
    t.Extends (t'.close answer fd).2 := by
  intro x hx
  have hne : x ≠ fd := fun heq => hfd (heq ▸ hx)
  rw [file_close_of_ne answer hne]
  exact h x hx

theorem Extends.dup (t : FdTable File) (ok : Bool) (oldfd : ℕ) : t.Extends (t.dup ok oldfd).2 := by
  unfold FdTable.dup
  split
  · exact Extends.rfl.install t.lowestFree_notMem
  · exact Extends.rfl

/-- The duplicate refers to the same file. -/
theorem file_dup {ok : Bool} {oldfd newfd : ℕ} (h : (t.dup ok oldfd).1 = some newfd) :
    (t.dup ok oldfd).2.file newfd = t.file oldfd := by
  unfold dup at h ⊢
  split at h
  · next f hf =>
    obtain rfl : t.lowestFree = newfd := Option.some.inj h
    rw [file_install_self, hf]
  · cases h

/-- `dup2` succeeds for an open descriptor unless it is refused. -/
theorem dup2_eq {oldfd : ℕ} (h : t.file oldfd = some f) (ok : Bool) (newfd : ℕ) :
    t.dup2 ok oldfd newfd = if ok then (true, t.install newfd f) else (false, t) := by
  cases ok with
  | true => simp [dup2, h]
  | false => simp [dup2]

end FdTable

end OsHomework
