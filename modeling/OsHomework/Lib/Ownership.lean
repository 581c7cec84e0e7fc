import Mathlib.Data.List.Nodup
import Mathlib.Logic.Function.Basic
import Mathlib.Data.Set.Basic
import Mathlib.Tactic

/-!
# Resources held by threads or waiting in a queue

Each of a family of threads holds at most one resource, and further resources
wait in a queue. `Ownership held queue live` says that the live resources are
those held or queued, and that none of them has two owners: no two threads hold
the same one, none is both held and queued, and the queue has no repetition.

A resource enters by `acquire`, moves by `push` and `pop`, and leaves by `release`
from a thread or by `drop` from the queue; each move keeps the property.
-/

namespace OsHomework

variable {ι α : Type}

/-- Every live resource has exactly one owner. -/
structure Ownership (held : ι → Option α) (queue : List α) (live : Set α) : Prop where
  held_inj : ∀ i j a, held i = some a → held j = some a → i = j
  held_queue : ∀ i a, held i = some a → a ∉ queue
  queue_nodup : queue.Nodup
  live_iff : ∀ a, a ∈ live ↔ (∃ i, held i = some a) ∨ a ∈ queue

namespace Ownership

variable {held : ι → Option α} {queue : List α} {live : Set α} {i : ι} {a : α}

theorem live_of_held (h : Ownership held queue live) (hi : held i = some a) : a ∈ live :=
  (h.live_iff a).mpr (Or.inl ⟨i, hi⟩)

theorem live_of_mem (h : Ownership held queue live) (ha : a ∈ queue) : a ∈ live :=
  (h.live_iff a).mpr (Or.inr ha)

variable [DecidableEq ι]

/-- Only `i` loses or gains a resource in an update at `i`. -/
private theorem held_of_update_none {j : ι} {b : α}
    (hj : Function.update held i none j = some b) : j ≠ i ∧ held j = some b := by
  by_cases hji : j = i
  · rw [hji, Function.update_self] at hj
    exact absurd hj (by simp)
  · rw [Function.update_of_ne hji] at hj
    exact ⟨hji, hj⟩

private theorem held_of_update_some {j : ι} {b : α}
    (hj : Function.update held i (some a) j = some b) :
    (j = i ∧ b = a) ∨ (j ≠ i ∧ held j = some b) := by
  by_cases hji : j = i
  · rw [hji, Function.update_self] at hj
    exact Or.inl ⟨hji, (Option.some.inj hj).symm⟩
  · rw [Function.update_of_ne hji] at hj
    exact Or.inr ⟨hji, hj⟩

/-- A thread gets a resource that was not live. -/
theorem acquire (h : Ownership held queue live) (hi : held i = none) (ha : a ∉ live) :
    Ownership (Function.update held i (some a)) queue (insert a live) where
  held_inj := by
    intro j k b hj hk
    -- the new holder is alone: whoever held `a` before would have made it live
    rcases held_of_update_some hj with ⟨rfl, rfl⟩ | ⟨-, hj'⟩
    · rcases held_of_update_some hk with ⟨rfl, -⟩ | ⟨-, hk'⟩
      · rfl
      · exact absurd (h.live_of_held hk') ha
    · rcases held_of_update_some hk with ⟨-, rfl⟩ | ⟨-, hk'⟩
      · exact absurd (h.live_of_held hj') ha
      · exact h.held_inj j k b hj' hk'
  held_queue := by
    intro j b hj
    rcases held_of_update_some hj with ⟨-, rfl⟩ | ⟨-, hj⟩
    · exact fun hb => ha (h.live_of_mem hb)
    · exact h.held_queue j b hj
  queue_nodup := h.queue_nodup
  live_iff := by
    intro b
    rw [Set.mem_insert_iff, h.live_iff]
    constructor
    · rintro (rfl | ⟨j, hj⟩ | hb)
      · exact Or.inl ⟨i, Function.update_self _ _ _⟩
      · -- no other thread is touched, and `i` held nothing
        refine Or.inl ⟨j, ?_⟩
        rwa [Function.update_of_ne]
        rintro rfl
        rw [hi] at hj
        exact absurd hj (by simp)
      · exact Or.inr hb
    · rintro (⟨j, hj⟩ | hb)
      · rcases held_of_update_some hj with ⟨-, rfl⟩ | ⟨-, hj⟩
        · exact Or.inl rfl
        · exact Or.inr (Or.inl ⟨j, hj⟩)
      · exact Or.inr (Or.inr hb)

/-- A thread gives its resource up. -/
theorem release (h : Ownership held queue live) (hi : held i = some a) :
    Ownership (Function.update held i none) queue (live \ {a}) where
  held_inj := by
    intro j k b hj hk
    exact h.held_inj j k b (held_of_update_none hj).2 (held_of_update_none hk).2
  held_queue := by
    intro j b hj
    exact h.held_queue j b (held_of_update_none hj).2
  queue_nodup := h.queue_nodup
  live_iff := by
    intro b
    rw [Set.mem_sdiff, Set.mem_singleton_iff, h.live_iff]
    constructor
    · rintro ⟨⟨j, hj⟩ | hb, hne⟩
      · -- the thread that gives up is the only one that held `a`
        refine Or.inl ⟨j, ?_⟩
        rwa [Function.update_of_ne]
        rintro rfl
        exact hne (Option.some.inj (hj.symm.trans hi))
      · exact Or.inr hb
    · rintro (⟨j, hj⟩ | hb)
      · obtain ⟨hji, hj⟩ := held_of_update_none hj
        exact ⟨Or.inl ⟨j, hj⟩, fun hba => hji (h.held_inj j i a (hba ▸ hj) hi)⟩
      · -- what is queued is held by nobody, so it is not `a`
        exact ⟨Or.inr hb, fun hba => h.held_queue i a hi (hba ▸ hb)⟩

/-- A thread puts its resource at the end of the queue. -/
theorem push (h : Ownership held queue live) (hi : held i = some a) :
    Ownership (Function.update held i none) (queue ++ [a]) live where
  held_inj := by
    intro j k b hj hk
    exact h.held_inj j k b (held_of_update_none hj).2 (held_of_update_none hk).2
  held_queue := by
    intro j b hj hb
    obtain ⟨hji, hj⟩ := held_of_update_none hj
    -- another thread does not hold the resource that is queued now
    rcases List.mem_append.mp hb with hb | hb
    · exact h.held_queue j b hj hb
    · rw [List.mem_singleton.mp hb] at hj
      exact hji (h.held_inj j i a hj hi)
  queue_nodup := by
    -- a resource that is held is in no queue yet
    refine List.nodup_append.mpr ⟨h.queue_nodup, List.nodup_singleton a, ?_⟩
    intro b hb c hc
    rw [List.mem_singleton.mp hc]
    exact fun hba => h.held_queue i a hi (hba ▸ hb)
  live_iff := by
    intro b
    rw [h.live_iff, List.mem_append, List.mem_singleton]
    constructor
    · rintro (⟨j, hj⟩ | hb)
      · -- `a` changes its place and stays live
        by_cases hba : b = a
        · exact Or.inr (Or.inr hba)
        · refine Or.inl ⟨j, ?_⟩
          rwa [Function.update_of_ne]
          rintro rfl
          exact hba (Option.some.inj (hj.symm.trans hi))
      · exact Or.inr (Or.inl hb)
    · rintro (⟨j, hj⟩ | hb | rfl)
      · exact Or.inl ⟨j, (held_of_update_none hj).2⟩
      · exact Or.inr hb
      · exact Or.inl ⟨i, hi⟩

/-- A thread takes the resource at the head of the queue. -/
theorem pop (h : Ownership held (a :: queue) live) (hi : held i = none) :
    Ownership (Function.update held i (some a)) queue live where
  held_inj := by
    intro j k b hj hk
    rcases held_of_update_some hj with ⟨rfl, rfl⟩ | ⟨-, hj'⟩
    · rcases held_of_update_some hk with ⟨rfl, -⟩ | ⟨-, hk'⟩
      · rfl
      · -- the head of the queue is held by nobody
        exact absurd List.mem_cons_self (h.held_queue k b hk')
    · rcases held_of_update_some hk with ⟨-, rfl⟩ | ⟨-, hk'⟩
      · exact absurd List.mem_cons_self (h.held_queue j b hj')
      · exact h.held_inj j k b hj' hk'
  held_queue := by
    intro j b hj
    rcases held_of_update_some hj with ⟨-, rfl⟩ | ⟨-, hj⟩
    · -- it is queued only once
      exact (List.nodup_cons.mp h.queue_nodup).1
    · exact fun hb => h.held_queue j b hj (List.mem_cons_of_mem _ hb)
  queue_nodup := (List.nodup_cons.mp h.queue_nodup).2
  live_iff := by
    intro b
    rw [h.live_iff, List.mem_cons]
    constructor
    · rintro (⟨j, hj⟩ | rfl | hb)
      · -- the other threads keep what they hold, and `i` held nothing
        refine Or.inl ⟨j, ?_⟩
        rwa [Function.update_of_ne]
        rintro rfl
        rw [hi] at hj
        exact absurd hj (by simp)
      · exact Or.inl ⟨i, Function.update_self _ _ _⟩
      · exact Or.inr hb
    · rintro (⟨j, hj⟩ | hb)
      · rcases held_of_update_some hj with ⟨-, rfl⟩ | ⟨-, hj⟩
        · exact Or.inr (Or.inl rfl)
        · exact Or.inl ⟨j, hj⟩
      · exact Or.inr (Or.inr hb)

omit [DecidableEq ι] in
/-- A queued resource is taken out and given up. -/
theorem drop (h : Ownership held queue live) {k : ℕ} (hk : queue[k]? = some a) :
    Ownership held (queue.eraseIdx k) (live \ {a}) := by
  have hmem : a ∈ queue := List.mem_of_getElem? hk
  -- without repetitions, erasing the position erases the value
  have hsplit : ∀ b, b ∈ queue.eraseIdx k ↔ b ∈ queue ∧ b ≠ a := by
    intro b
    obtain ⟨hlt, rfl⟩ := List.getElem?_eq_some_iff.mp hk
    have hperm : queue.Perm (queue[k] :: queue.eraseIdx k) :=
      (List.getElem_cons_eraseIdx_perm hlt).symm
    have hnot := (List.nodup_cons.mp (hperm.nodup_iff.mp h.queue_nodup)).1
    rw [hperm.mem_iff, List.mem_cons]
    constructor
    · exact fun hb => ⟨Or.inr hb, fun hba => hnot (hba ▸ hb)⟩
    · rintro ⟨rfl | hb, hne⟩
      · exact absurd rfl hne
      · exact hb
  constructor
  · exact h.held_inj
  · intro j b hj hb
    exact h.held_queue j b hj ((hsplit b).mp hb).1
  · exact h.queue_nodup.sublist (List.eraseIdx_sublist _ _)
  · intro b
    rw [Set.mem_sdiff, Set.mem_singleton_iff, h.live_iff, hsplit]
    constructor
    · rintro ⟨⟨j, hj⟩ | hb, hne⟩
      · exact Or.inl ⟨j, hj⟩
      · exact Or.inr ⟨hb, hne⟩
    · rintro (⟨j, hj⟩ | ⟨hb, hne⟩)
      · -- what a thread holds is not `a`, which is queued
        exact ⟨Or.inl ⟨j, hj⟩, fun hba => h.held_queue j a (hba ▸ hj) hmem⟩
      · exact ⟨Or.inr hb, hne⟩

end Ownership

end OsHomework
