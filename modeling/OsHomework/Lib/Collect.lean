import Mathlib.Data.Fintype.Card
import Mathlib.Data.Fintype.Basic
import Mathlib.Data.List.FinRange

/-!
# Collecting one optional value per index

`collect f` lists the values a finite family of options has, in index order. A
pool of threads, each holding at most one resource, is such a family, and the
resources held by the pool are its collection. Changing one member changes the
collection by one element, up to order.
-/

namespace OsHomework

variable {α : Type} {n : ℕ}

/-- The values of a family of options. -/
def collect (f : Fin n → Option α) : List α :=
  (List.finRange n).filterMap f

theorem mem_collect {f : Fin n → Option α} {a : α} : a ∈ collect f ↔ ∃ w, f w = some a := by
  simp [collect, List.mem_filterMap]

/-- There are as many values as members that have one. -/
theorem length_collect (f : Fin n → Option α) :
    (collect f).length = (Finset.univ.filter (fun w => (f w).isSome)).card := by
  rw [collect, List.length_filterMap_eq_countP, List.countP_eq_length_filter, Finset.card_def,
    Finset.filter_val, Fin.univ_def, Multiset.filter_coe, Multiset.coe_card]
  simp

private theorem filterMap_update_of_notMem {f : Fin n → Option α} {w : Fin n} {o : Option α}
    {l : List (Fin n)} (hw : w ∉ l) :
    l.filterMap (Function.update f w o) = l.filterMap f := by
  apply List.filterMap_congr
  intro v hv
  rw [Function.update_of_ne (ne_of_mem_of_not_mem hv hw)]

private theorem filterMap_update_some {f : Fin n → Option α} {w : Fin n} {a : α}
    (hf : f w = none) {l : List (Fin n)} (hl : l.Nodup) (hw : w ∈ l) :
    (l.filterMap (Function.update f w (some a))).Perm (a :: l.filterMap f) := by
  induction l with
  | nil => simp at hw
  | cons v l ih =>
    obtain ⟨hv, hl⟩ := List.nodup_cons.mp hl
    rcases List.mem_cons.mp hw with rfl | hw
    · rw [List.filterMap_cons_some (Function.update_self w (some a) f),
        filterMap_update_of_notMem hv, List.filterMap_cons_none hf]
    · have hne : v ≠ w := fun h => hv (h ▸ hw)
      rw [List.filterMap_cons, List.filterMap_cons, Function.update_of_ne hne]
      cases f v with
      | none => exact ih hl hw
      | some b => exact ((ih hl hw).cons b).trans (List.Perm.swap a b _)

/-- A member that gets a value adds it to the collection. -/
theorem collect_update_some {f : Fin n → Option α} {w : Fin n} (hf : f w = none) (a : α) :
    (collect (Function.update f w (some a))).Perm (a :: collect f) :=
  filterMap_update_some hf (List.nodup_finRange n) (List.mem_finRange w)

/-- A member that loses its value takes it from the collection. -/
theorem collect_update_none {f : Fin n → Option α} {w : Fin n} {a : α} (hf : f w = some a) :
    (collect f).Perm (a :: collect (Function.update f w none)) := by
  have h := collect_update_some (f := Function.update f w none) (Function.update_self w none f) a
  rwa [Function.update_idem, ← hf, Function.update_eq_self] at h

end OsHomework
