import Mathlib.Data.List.Chain
import Mathlib.Data.List.Nodup
import OsHomework.Lib.LinkedList

/-!
# Doubly linked lists

A doubly linked list in memory is a start address, a `next` function and a `prev` function. Back
links are optional values: `none` is a link that nobody has written. `Linked next prev p A` says
that the nodes met from `p` on are `A`, in that order, and that every node but the first leads back
to the one before it. Of the back link of the first node it says nothing.

The lemmas are the three ways such a list changes: a node appended behind the last one
(`Linked.append`), the first node dropped (`Linked.drop_first`) and a later node taken out
(`Linked.unlink`). Each asks of the new links only that they agree with the old ones where the
change does not touch them.

Where the back links are pointers as well and the last node is known, the whole structure is two
chains: the nodes from the head along `next`, and the same nodes in reverse from the tail along
`prev`. `Chain.prev_head` and `Chain.prev_next` are what this means for single nodes.
-/

namespace OsHomework

variable {next next' : ℕ → ℕ} {prev prev' : ℕ → Option ℕ}

/-- The nodes of a null-terminated doubly linked list that starts at `p`. -/
structure Linked (next : ℕ → ℕ) (prev : ℕ → Option ℕ) (p : ℕ) (A : List ℕ) : Prop where
  forth : Chain next p A
  back : A.IsChain fun a b => prev b = some a
  nodup : A.Nodup

namespace Linked

variable {p a b r t : ℕ} {A pre post : List ℕ}

theorem nil : Linked next prev 0 [] :=
  ⟨rfl, .nil, List.nodup_nil⟩

theorem singleton (h0 : a ≠ 0) (hnext : next a = 0) : Linked next prev a [a] :=
  ⟨⟨rfl, h0, hnext⟩, .singleton a, List.nodup_singleton a⟩

/-- Back links that agree on all but the first node make the same list. -/
theorem back_congr (h : A.IsChain fun a b => prev b = some a)
    (hprev : ∀ x ∈ A.tail, prev' x = prev x) : A.IsChain fun a b => prev' b = some a :=
  h.imp_of_mem_tail_imp fun _ b _ hb hab => (hprev b hb).trans hab

theorem prev_eq (h : Linked next prev p (pre ++ b :: a :: post)) : prev a = some b :=
  (List.isChain_append_cons_cons.mp h.back).2.1

theorem next_eq (h : Linked next prev p (pre ++ a :: post)) : next a = post.headD 0 :=
  h.forth.next_eq.start_eq

/-- A node behind the last one. -/
theorem append (h : Linked next prev p (A ++ [t])) (hr : r ∉ A ++ [t]) (h0 : r ≠ 0)
    (hnext : ∀ x ∈ A, next' x = next x) (ht : next' t = r) (hnr : next' r = 0)
    (hprev : ∀ x ∈ A ++ [t], prev' x = prev x) (hpr : prev' r = some t) :
    Linked next' prev' p (A ++ [t] ++ [r]) where
  forth := by
    rw [List.append_assoc]
    exact h.forth.replace_tail hnext ⟨ht, h0, hnr⟩
  back := by
    rw [List.append_assoc]
    refine List.isChain_append_cons_cons.mpr ⟨?_, hpr, .singleton r⟩
    exact back_congr h.back fun x hx => hprev x (List.mem_of_mem_tail hx)
  nodup := by
    apply h.nodup.append (List.nodup_singleton r)
    -- the new node is not among the old ones
    intro x hx hxr
    rw [List.mem_singleton.mp hxr] at hx
    exact hr hx

/-- The list without its first node. -/
theorem drop_first (h : Linked next prev p (a :: b :: A))
    (hnext : ∀ x ∈ b :: A, next' x = next x) (hprev : ∀ x ∈ A, prev' x = prev x) :
    Linked next' prev' b (b :: A) where
  forth := by
    obtain ⟨-, -, -, h0, hrest⟩ := h.forth
    exact Chain.congr ⟨rfl, h0, hrest⟩ hnext
  back := back_congr h.back.tail hprev
  nodup := h.nodup.tail

/-- The list without a node that has another one before it: `b` now leads past `a`, and what
stood behind `a` leads back to `b`. -/
theorem unlink (h : Linked next prev p (pre ++ b :: a :: post))
    (hnext : ∀ x ∈ pre ++ post, next' x = next x) (hb : next' b = next a)
    (hprev : ∀ x ∈ pre ++ [b], prev' x = prev x) (hpost : ∀ x ∈ post.head?, prev' x = some b)
    (hprev' : ∀ x ∈ post.tail, prev' x = prev x) :
    Linked next' prev' p (pre ++ b :: post) where
  forth := by
    apply h.forth.replace_tail (fun x hx => hnext x (List.mem_append_left post hx))
    -- what follows `a` is untouched
    have hafter : Chain next (next a) post := by
      have h' := h.forth
      rw [List.append_cons] at h'
      exact h'.next_eq
    rw [hb]
    exact hafter.congr fun x hx => hnext x (List.mem_append_right pre hx)
  back := by
    -- the back links in front of `b` and behind `a` stay, and one is new
    obtain ⟨hpre, -, hapost⟩ := List.isChain_append_cons_cons.mp h.back
    refine List.isChain_split.mpr ⟨?_, List.isChain_cons.mpr ⟨hpost, ?_⟩⟩
    · exact back_congr hpre fun x hx => hprev x (List.mem_of_mem_tail hx)
    · exact back_congr hapost.tail hprev'
  nodup := by
    refine h.nodup.sublist ?_
    exact (List.Sublist.refl pre).append ((List.sublist_cons_self a post).cons_cons b)

end Linked

namespace Chain

variable {back : ℕ → ℕ} {p q a : ℕ} {A : List ℕ}

/-- A chain is determined by its start and its links. -/
theorem unique {B : List ℕ} (h : Chain next p A) (h' : Chain next p B) : A = B := by
  induction A generalizing p B with
  | nil =>
    cases B with
    | nil => rfl
    | cons b B => exact absurd (h'.1.symm.trans h) h'.2.1
  | cons a A ih =>
    cases B with
    | nil => exact absurd (h.1.symm.trans h') h.2.1
    | cons b B =>
      obtain rfl : a = b := h.1.symm.trans h'.1
      rw [ih h.2.2 h'.2.2]

/-- The first node leads back to nothing. -/
theorem prev_head (h : Chain next p A) (hback : Chain back q A.reverse) (hp : p ≠ 0) :
    back p = 0 := by
  cases A with
  | nil => exact absurd h hp
  | cons a A =>
    obtain rfl : p = a := h.1
    rw [List.reverse_cons] at hback
    exact hback.next_eq

/-- Every other node leads back to the one before it. -/
theorem prev_next (h : Chain next p A) (hback : Chain back q A.reverse) (ha : a ∈ A)
    (hlast : a ≠ q) : back (next a) = a := by
  obtain ⟨pre, post, rfl⟩ := List.append_of_mem ha
  cases post with
  | nil =>
    rw [List.reverse_append, List.reverse_singleton, List.singleton_append] at hback
    exact absurd hback.1.symm hlast
  | cons b post =>
    obtain rfl : next a = b := h.next_eq.1
    rw [List.reverse_append, List.reverse_cons, List.reverse_cons, List.append_assoc,
      List.append_assoc] at hback
    exact hback.next_eq.1

end Chain

end OsHomework
