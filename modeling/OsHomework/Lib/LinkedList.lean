import Mathlib.Data.List.Nodup
import Mathlib.Tactic.Ring

/-!
# Null-terminated linked lists

A linked list in memory is a start address and a `next` function; `Chain next p L` says that the
nodes met from `p` on are the addresses `L`, in that order, up to the null pointer `0`. A list
changes by one node more or one node less (`insertLink`, `removeLink`); both are stated for any
position, so that the back links of a doubly linked list are a case of them as well.

The loops over such a list all have one of two shapes: stop at the first node that meets a
condition, remembering the node before it (`scan`), or fold over every node (`foldNodes`). Both take
fuel, and `none` is a loop that has not left the list when the fuel is spent. On a chain shorter
than the fuel both are list functions, which is what `scan_hit`, `scan_miss` and `foldNodes_chain`
say.
-/

namespace OsHomework

variable {next next' : ℕ → ℕ}

/-- The nodes of the null-terminated list that starts at `p`. -/
def Chain (next : ℕ → ℕ) : ℕ → List ℕ → Prop
  | p, [] => p = 0
  | p, a :: L => p = a ∧ a ≠ 0 ∧ Chain next (next a) L

namespace Chain

variable {p a b : ℕ} {L pre post : List ℕ}

@[simp] theorem nil_iff : Chain next p [] ↔ p = 0 := Iff.rfl

@[simp] theorem cons_iff : Chain next p (a :: L) ↔ p = a ∧ a ≠ 0 ∧ Chain next (next a) L := Iff.rfl

/-- The start pointer is the first node, or null. -/
theorem start_eq (h : Chain next p L) : p = L.headD 0 := by
  cases L with
  | nil => exact h
  | cons a L => exact h.1

theorem start_eq_zero_iff (h : Chain next p L) : p = 0 ↔ L = [] := by
  cases L with
  | nil => exact iff_of_true h rfl
  | cons a L => exact iff_of_false (h.1 ▸ h.2.1) (List.cons_ne_nil a L)

theorem ne_zero (h : Chain next p L) : ∀ a ∈ L, a ≠ 0 := by
  induction L generalizing p with
  | nil => simp
  | cons b L ih =>
    intro a ha
    obtain rfl | ha := List.mem_cons.mp ha
    · exact h.2.1
    · exact ih h.2.2 a ha

/-- A list is determined by where it starts and by the links of its nodes. -/
theorem congr (h : Chain next p L) (heq : ∀ a ∈ L, next' a = next a) : Chain next' p L := by
  induction L generalizing p with
  | nil => exact h
  | cons a L ih =>
    refine ⟨h.1, h.2.1, ?_⟩
    rw [heq a List.mem_cons_self]
    exact ih h.2.2 fun b hb => heq b (List.mem_cons_of_mem a hb)

/-- The link of a node in the middle of a list. -/
theorem next_eq (h : Chain next p (pre ++ a :: post)) : Chain next (next a) post := by
  induction pre generalizing p with
  | nil => exact h.2.2
  | cons b pre ih => exact ih h.2.2

/-- A list from one of its nodes on. -/
theorem suffix (h : Chain next p (pre ++ post)) : Chain next (post.headD 0) post := by
  induction pre generalizing p with
  | nil => exact h.start_eq ▸ h
  | cons b pre ih => exact ih h.2.2

/-- Replace everything behind a node: its link now leads to another list. -/
theorem replace_tail (h : Chain next p (pre ++ a :: post))
    (hpre : ∀ b ∈ pre, next' b = next b) (htail : Chain next' (next' a) L) :
    Chain next' p (pre ++ a :: L) := by
  induction pre generalizing p with
  | nil => exact ⟨h.1, h.2.1, htail⟩
-- the link of `b` is not the one that changes
  | cons b pre ih =>
    refine ⟨h.1, h.2.1, ?_⟩
    rw [hpre b List.mem_cons_self]
    exact ih h.2.2 fun c hc => hpre c (List.mem_cons_of_mem b hc)

/-- Replace everything behind the first nodes, if there are any. -/
theorem splice {q : ℕ} (h : Chain next p (pre ++ post)) (htail : Chain next' q L)
    (hlast : ∀ e ∈ pre.getLast?, next' e = q) (hpre : ∀ b ∈ pre.dropLast, next' b = next b) :
    Chain next' ((pre ++ L).headD 0) (pre ++ L) := by
  obtain rfl | ⟨pre, e, rfl⟩ := List.eq_nil_or_concat' pre
  -- with nothing in front, the new list is all there is
  · exact htail.start_eq ▸ htail
  -- the link of the last node in front leads over
  · rw [List.dropLast_concat] at hpre
    rw [← hlast e List.getLast?_concat] at htail
    rw [List.append_assoc, List.singleton_append] at h ⊢
    have hchain := h.replace_tail hpre htail
    exact hchain.start_eq ▸ hchain

end Chain

/-! ### One node more, one node less -/

/-- The links once the node `a` stands between the nodes `pre` and the nodes `post`. -/
def insertLink (next : ℕ → ℕ) (pre post : List ℕ) (a : ℕ) : ℕ → ℕ := fun x =>
  if a = x then post.headD 0 else if x ∈ pre.getLast? then a else next x

/-- The links once the node `a` between `pre` and `post` is taken out, and its own is cleared. -/
def removeLink (next : ℕ → ℕ) (pre post : List ℕ) (a : ℕ) : ℕ → ℕ := fun x =>
  if a = x then 0 else if x ∈ pre.getLast? then post.headD 0 else next x

namespace Chain

variable {p a : ℕ} {pre post : List ℕ}

/-- Only the last of several nodes is the last. -/
theorem notMem_getLast? {x : ℕ} (hnodup : pre.Nodup) (hx : x ∈ pre.dropLast) :
    x ∉ pre.getLast? := by
  obtain rfl | ⟨pre, e, rfl⟩ := List.eq_nil_or_concat' pre
  · exact absurd hx List.not_mem_nil
  · rw [List.dropLast_concat] at hx
    rw [List.getLast?_concat, Option.mem_some_iff]
    rintro rfl
    exact List.disjoint_of_nodup_append hnodup hx List.mem_cons_self

/-- **A node more.** -/
theorem insert (h : Chain next p (pre ++ post)) (hnodup : (pre ++ post).Nodup)
    (ha : a ∉ pre ++ post) (h0 : a ≠ 0) :
    Chain (insertLink next pre post a) ((pre ++ a :: post).headD 0) (pre ++ a :: post) := by
  have hne : ∀ x ∈ pre ++ post, a ≠ x := fun x hx heq => ha (heq ▸ hx)
  have hdisj := List.disjoint_of_nodup_append hnodup
  have hpost : ∀ x ∈ post, insertLink next pre post a x = next x := by
    intro x hx
    have hlast : x ∉ pre.getLast? := fun hmem => hdisj (List.mem_of_getLast? hmem) hx
    rw [insertLink, if_neg (hne x (List.mem_append_right pre hx)), if_neg hlast]
  -- from the new node on, the links are its own and the old ones
  have htail : Chain (insertLink next pre post a) a (a :: post) := by
    refine ⟨rfl, h0, ?_⟩
    rw [insertLink, if_pos rfl]
    exact h.suffix.congr hpost
  -- in front of it only the link of the last node changes
  refine h.splice htail (fun e he => ?_) fun b hb => ?_
  · have hmem := List.mem_append_left post (List.mem_of_getLast? he)
    rw [insertLink, if_neg (hne e hmem), if_pos he]
  · have hmem := List.mem_append_left post (List.dropLast_subset pre hb)
    have hlast := notMem_getLast? hnodup.of_append_left hb
    rw [insertLink, if_neg (hne b hmem), if_neg hlast]

/-- **A node less.** -/
theorem remove (h : Chain next p (pre ++ a :: post)) (hnodup : (pre ++ a :: post).Nodup) :
    Chain (removeLink next pre post a) ((pre ++ post).headD 0) (pre ++ post) := by
  have hdisj := List.disjoint_of_nodup_append hnodup
  have hne_pre : ∀ x ∈ pre, a ≠ x := fun x hx heq => hdisj hx (heq ▸ List.mem_cons_self)
  have hne_post : ∀ x ∈ post, a ≠ x := fun x hx heq =>
    (List.nodup_cons.mp hnodup.of_append_right).1 (heq ▸ hx)
  have hpost : ∀ x ∈ post, removeLink next pre post a x = next x := by
    intro x hx
    have hlast : x ∉ pre.getLast? := fun hmem =>
      hdisj (List.mem_of_getLast? hmem) (List.mem_cons_of_mem a hx)
    rw [removeLink, if_neg (hne_post x hx), if_neg hlast]
  have htail : Chain next (post.headD 0) post := by
    rw [List.append_cons] at h
    exact h.suffix
  -- in front of the node that goes only the link of the last one changes
  refine h.splice (htail.congr hpost) (fun e he => ?_) fun b hb => ?_
  · rw [removeLink, if_neg (hne_pre e (List.mem_of_getLast? he)), if_pos he]
  · have hlast := notMem_getLast? hnodup.of_append_left hb
    rw [removeLink, if_neg (hne_pre b (List.dropLast_subset pre hb)), if_neg hlast]

end Chain

/-- The search loop `while (cur != NULL) { if (stop(cur)) break; prev = cur; cur = cur->next; }`:
the values of `prev` and `cur` when it is left. -/
def scan (next : ℕ → ℕ) (stop : ℕ → Bool) : ℕ → ℕ → ℕ → Option (ℕ × ℕ)
  | 0, _, _ => none
  | fuel + 1, prev, cur =>
    if cur = 0 then some (prev, 0)
    else if stop cur then some (prev, cur)
    else scan next stop fuel cur (next cur)

section Scan

variable {stop : ℕ → Bool} {fuel prev p a : ℕ} {L pre post : List ℕ}

/-- The search stops at the first node that meets the condition. -/
theorem scan_hit (h : Chain next p (pre ++ a :: post)) (hpre : ∀ b ∈ pre, stop b = false)
    (ha : stop a = true) (hfuel : pre.length < fuel) :
    scan next stop fuel prev p = some (pre.getLastD prev, a) := by
  induction pre generalizing fuel prev p with
  | nil =>
    obtain ⟨n, rfl⟩ : ∃ n, fuel = n + 1 := ⟨fuel - 1, by simp at hfuel; omega⟩
    obtain ⟨rfl, h0, -⟩ := h
    rw [scan, if_neg h0, if_pos ha, List.getLastD_nil]
  | cons b pre ih =>
    obtain ⟨n, rfl⟩ : ∃ n, fuel = n + 1 := ⟨fuel - 1, by simp at hfuel; omega⟩
    obtain ⟨rfl, h0, hrest⟩ := h
    -- `b` does not stop the search, and becomes the node before
    have hb : ¬ stop p = true := by simp [hpre p List.mem_cons_self]
    rw [scan, if_neg h0, if_neg hb, List.getLastD_cons]
    exact ih hrest (fun c hc => hpre c (List.mem_cons_of_mem p hc)) (by simpa using hfuel)

/-- The search runs off the end when no node meets the condition. -/
theorem scan_miss (h : Chain next p L) (hL : ∀ b ∈ L, stop b = false) (hfuel : L.length < fuel) :
    scan next stop fuel prev p = some (L.getLastD prev, 0) := by
  induction L generalizing fuel prev p with
  | nil =>
    obtain ⟨n, rfl⟩ : ∃ n, fuel = n + 1 := ⟨fuel - 1, by simp at hfuel; omega⟩
    rw [scan, if_pos (Chain.nil_iff.mp h), List.getLastD_nil]
  | cons b L ih =>
    obtain ⟨n, rfl⟩ : ∃ n, fuel = n + 1 := ⟨fuel - 1, by simp at hfuel; omega⟩
    obtain ⟨rfl, h0, hrest⟩ := h
    -- no node stops it, and the last one is remembered
    have hb : ¬ stop p = true := by simp [hL p List.mem_cons_self]
    rw [scan, if_neg h0, if_neg hb, List.getLastD_cons]
    exact ih hrest (fun c hc => hL c (List.mem_cons_of_mem p hc)) (by simpa using hfuel)

/-- Whatever holds of the start values and of every link holds of what the search returns, on any
list. -/
theorem scan_forall {P : ℕ → Prop} {b : ℕ} (h : scan next stop fuel prev p = some (a, b))
    (hprev : P prev) (hp : P p) (hnext : ∀ q, P (next q)) : P a ∧ P b := by
  induction fuel generalizing prev p with
  | zero => cases h
  | succ n ih =>
    rw [scan] at h
    -- the three ways a round goes: the end, a hit, or on to the next node
    by_cases hp0 : p = 0
    · rw [if_pos hp0] at h
      cases h
      exact ⟨hprev, hp0 ▸ hp⟩
    · rw [if_neg hp0] at h
      by_cases hstop : stop p = true
      · rw [if_pos hstop] at h
        cases h
        exact ⟨hprev, hp⟩
      · rw [if_neg hstop] at h
        exact ih h hp (hnext p)

end Scan

/-- The loop `while (cur != NULL) { acc = f(acc, cur); cur = cur->next; }`: the final `acc`. -/
def foldNodes {β : Type} (next : ℕ → ℕ) (f : β → ℕ → β) : ℕ → β → ℕ → Option β
  | 0, _, _ => none
  | fuel + 1, acc, cur =>
    if cur = 0 then some acc else foldNodes next f fuel (f acc cur) (next cur)

theorem foldNodes_chain {β : Type} {f : β → ℕ → β} {fuel p : ℕ} {acc : β} {L : List ℕ}
    (h : Chain next p L) (hfuel : L.length < fuel) :
    foldNodes next f fuel acc p = some (L.foldl f acc) := by
  induction L generalizing fuel acc p with
  | nil =>
    obtain ⟨n, rfl⟩ : ∃ n, fuel = n + 1 := ⟨fuel - 1, by simp at hfuel; omega⟩
    rw [foldNodes, if_pos (Chain.nil_iff.mp h), List.foldl_nil]
  | cons a L ih =>
    obtain ⟨n, rfl⟩ : ∃ n, fuel = n + 1 := ⟨fuel - 1, by simp at hfuel; omega⟩
    obtain ⟨rfl, h0, hrest⟩ := h
    rw [foldNodes, if_neg h0, List.foldl_cons]
    exact ih hrest (by simpa using hfuel)

/-- Folding over nodes that stand for the elements of a list. -/
theorem foldNodes_map {α β : Type} {f : β → ℕ → β} {g : β → α → β} {node : α → ℕ} {fuel p : ℕ}
    {acc : β} {L : List α} (h : Chain next p (L.map node)) (hfuel : L.length < fuel)
    (hf : ∀ acc, ∀ b ∈ L, f acc (node b) = g acc b) :
    foldNodes next f fuel acc p = some (L.foldl g acc) := by
  rw [foldNodes_chain h (by rwa [List.length_map]), List.foldl_map]
  exact congrArg some (List.foldl_ext _ _ acc hf)

/-- Collecting what the nodes hold, when that is known of each of them. -/
theorem foldNodes_collect {α β : Type} {f : ℕ → β} {node : α → ℕ} {g : α → β} {fuel p : ℕ}
    {L : List α} (h : Chain next p (L.map node)) (hfuel : L.length < fuel)
    (hf : ∀ b ∈ L, f (node b) = g b) :
    foldNodes next (fun acc q => acc ++ [f q]) fuel [] p = some (L.map g) := by
  have hfold : L.foldl (fun acc b => acc ++ [g b]) [] = L.map g := by
    -- appending one element at a time is a map
    rw [List.foldl_append_eq_append, List.nil_append, ← List.flatMap_def]
    exact List.map_eq_flatMap.symm
  rw [foldNodes_map h hfuel fun acc b hb => by rw [hf b hb], hfold]

end OsHomework
