import OsHomework.Malloc2.Paths
import OsHomework.Malloc2.Stats

/-!
# `malloc_1`: raising the break

`OS_HW4_234123/malloc_1.cpp` asks `sbrk` for every request and keeps nothing, so that the program
break is all of its state. The blocks it hands out never overlap (`blocks_apart`).

`malloc_2` takes the same requests. A program that frees nothing cannot tell the two apart but by
the addresses: with the same requests and the same answers of `sbrk` they grant and refuse the same
ones, and an address of `malloc_2` is that of `malloc_1` moved up by the headers of the blocks so
far (`addresses_shifted`).
-/

namespace OsHomework.Malloc1

/-- `sbrk(n)` with the break `brk`: the old break and the new one, `none` for `(void*)(-1)`. With
the outcome `some gap`, others have raised the break by `gap` since the last call. -/
def sbrk (brk : ℕ) (outcome : Option ℕ) (n : ℕ) : Option (ℕ × ℕ) :=
  match outcome with
  | none => none
  | some gap => if brk + gap + n < wordLimit then some (brk + gap, brk + gap + n) else none

/-- `smalloc`: the pointer and the break. -/
def smalloc (brk : ℕ) (outcome : Option ℕ) (size : ℕ) : ℕ × ℕ :=
  if size = 0 then (0, brk)
  else if size > 100000000 then (0, brk)
  else
    match sbrk brk outcome size with
    | none => (0, brk)
    | some (ret, brk) => (ret, brk)

/-- A request, with the answer of `sbrk`. -/
structure Request where
  outcome : Option ℕ
  size : ℕ

/-! ### The blocks -/

section

variable {brk p brk' : ℕ} {r : Request}

/-- A request is refused, or it gets the bytes up to the new break. -/
theorem smalloc_cases (brk : ℕ) (r : Request) :
    smalloc brk r.outcome r.size = (0, brk) ∨
      1 ≤ r.size ∧ r.size ≤ 100000000 ∧ ∃ gap, r.outcome = some gap ∧
        smalloc brk r.outcome r.size = (brk + gap, brk + gap + r.size) := by
  unfold smalloc
  split
  · exact Or.inl rfl
  · next hpos =>
    split
    · exact Or.inl rfl
    · next hmax =>
      cases hout : r.outcome with
      | none => exact Or.inl rfl
      | some gap =>
        unfold sbrk
        dsimp only
        split
        · exact Or.inl rfl
        · next heq =>
          split at heq
          · obtain ⟨rfl, rfl⟩ := Prod.mk.inj (Option.some.inj heq)
            exact Or.inr ⟨Nat.pos_of_ne_zero hpos, not_lt.mp hmax, gap, rfl, rfl⟩
          · cases heq

theorem smalloc_of_refused (brk size : ℕ) : smalloc brk none size = (0, brk) := by
  unfold smalloc sbrk
  split_ifs <;> rfl

theorem smalloc_of_invalid {outcome : Option ℕ} {size : ℕ}
    (h : ¬ (1 ≤ size ∧ size ≤ 100000000)) : smalloc brk outcome size = (0, brk) := by
  unfold smalloc
  split
  · rfl
  · next hzero =>
    split
    · rfl
    · next hmax => exact absurd ⟨Nat.pos_of_ne_zero hzero, not_lt.mp hmax⟩ h

theorem smalloc_of_granted {gap size : ℕ} (hpos : 1 ≤ size) (hmax : size ≤ 100000000)
    (hroom : brk + gap + size < wordLimit) :
    smalloc brk (some gap) size = (brk + gap, brk + gap + size) := by
  unfold smalloc sbrk
  rw [if_neg (Nat.pos_iff_ne_zero.mp hpos), if_neg (not_lt.mpr hmax)]
  dsimp only
  rw [if_pos hroom]

end

/-- A program: the break and the blocks it was given, with their sizes. -/
structure Program where
  brk : ℕ
  blocks : List (ℕ × ℕ)

/-- The runs of a program that only asks for memory. -/
def program : System Program Request where
  init s := 0 < s.brk ∧ s.blocks = []
  step s r t := t.brk = (smalloc s.brk r.outcome r.size).2 ∧
    t.blocks = if (smalloc s.brk r.outcome r.size).1 = 0 then s.blocks
      else s.blocks ++ [((smalloc s.brk r.outcome r.size).1, r.size)]

/-- The blocks lie below the break, one behind the other. -/
structure Apart (s : Program) : Prop where
  apart : s.blocks.Pairwise fun a b => a.1 + a.2 ≤ b.1
  below : ∀ b ∈ s.blocks, b.1 + b.2 ≤ s.brk

theorem Apart.step {s t : Program} {r : Request} (h : Apart s) (hst : program.step s r t) :
    Apart t := by
  obtain ⟨brk, blocks⟩ := t
  obtain ⟨hbrk, hblocks⟩ := hst
  dsimp only at hbrk hblocks
  subst hbrk hblocks
  obtain heq | ⟨-, -, gap, -, heq⟩ := smalloc_cases s.brk r
  · rw [heq]
    exact ⟨h.apart, h.below⟩
  · rw [heq]
    dsimp only
    split
    · exact ⟨h.apart, fun b hb => (h.below b hb).trans (by dsimp only; omega)⟩
    · refine ⟨List.pairwise_append.mpr ⟨h.apart, List.pairwise_singleton _ _, ?_⟩, ?_⟩
      · -- the new block starts at the old break or above
        intro a ha b hb
        rw [List.mem_singleton.mp hb]
        exact (h.below a ha).trans (Nat.le_add_right _ _)
      · intro b hb
        obtain hb | hb := List.mem_append.mp hb
        · exact (h.below b hb).trans (by dsimp only; omega)
        · rw [List.mem_singleton.mp hb]

/-- **No two blocks overlap**, whatever is asked for and whatever `sbrk` answers. -/
theorem blocks_apart {s : Program} (h : program.Reachable s) : Apart s := by
  refine h.invariant ?_ fun _ _ _ hinv hst => hinv.step hst
  rintro s ⟨-, hnone⟩
  refine ⟨?_, ?_⟩
  · rw [hnone]
    exact List.Pairwise.nil
  · rw [hnone]
    exact nofun

/-! ### Beside `malloc_2` -/

open Malloc2 in
/-- Both allocators, given the same requests. -/
structure Both where
  brk : ℕ
  heap : Heap
  /-- The requests that were granted. -/
  granted : ℕ

/-- The runs in which both are given the same requests and the same answers of `sbrk`, as long as
the address space has room for the blocks of `malloc_2`. The label has the two pointers. -/
def both : System Both (Request × ℕ × ℕ) where
  init s := s.heap.Fresh ∧ s.brk = s.heap.brk ∧ s.granted = 0
  step s l t :=
    (∀ gap, l.1.outcome = some gap →
      s.heap.brk + gap + (l.1.size + Malloc2.metadataSize) < wordLimit) ∧
    smalloc s.brk l.1.outcome l.1.size = (l.2.1, t.brk) ∧
    s.heap.smalloc l.1.outcome l.1.size = some (l.2.2, t.heap) ∧
    t.granted = if l.2.1 = 0 then s.granted else s.granted + 1

open Malloc2 in
/-- The break of `malloc_2` is ahead by the headers, and no block is free. -/
def Ahead (s : Both) : Prop :=
  0 < s.brk ∧ s.heap.brk = s.brk + metadataSize * s.granted ∧
    ∃ bs, s.heap.Repr bs ∧ bs.length = s.granted ∧ ∀ b ∈ bs, b.isFree = false

section

open Malloc2

variable {s t : Both} {r : Request} {p₁ p₂ : ℕ}

/-- Without a free block, a block that is granted is a new one. -/
theorem used_of_allocates {heap heap' : Heap} {bs bs' : List Blk} {size p : ℕ}
    (ha : heap.Allocates bs size p heap' bs') (hp : p ≠ 0) (hused : ∀ b ∈ bs, b.isFree = false) :
    bs'.length = bs.length + 1 ∧ ∀ b ∈ bs', b.isFree = false := by
  cases ha with
  | refused _ => exact absurd rfl hp
  | reused hfind =>
    -- a block that is reused was free
    have hfree := (Heap.fitsRequest_iff.mp (List.find?_some hfind)).1
    exact absurd hfree (by rw [hused _ (List.mem_of_find?_eq_some hfind)]; exact Bool.false_ne_true)
  | grown =>
    refine ⟨List.length_append, fun b hb => ?_⟩
    obtain hb | hb := List.mem_append.mp hb
    · exact hused b hb
    · rw [List.mem_singleton.mp hb]

/-- **One request** on both sides. -/
theorem Ahead.smalloc (h : Ahead s) (hroom : ∀ gap, r.outcome = some gap →
      s.heap.brk + gap + (r.size + metadataSize) < wordLimit) :
    (smalloc s.brk r.outcome r.size = (0, s.brk) ∧
        s.heap.smalloc r.outcome r.size = some (0, s.heap)) ∨
      ∃ gap heap, smalloc s.brk r.outcome r.size = (s.brk + gap, s.brk + gap + r.size) ∧
        s.heap.smalloc r.outcome r.size = some (s.heap.brk + gap + metadataSize, heap) ∧
        heap.brk = s.heap.brk + gap + (r.size + metadataSize) ∧
        ∃ bs, heap.Repr bs ∧ bs.length = s.granted + 1 ∧ ∀ b ∈ bs, b.isFree = false := by
  obtain ⟨-, hbrk, bs, hrepr, hlength, hused⟩ := h
  by_cases hvalid : 1 ≤ r.size ∧ r.size ≤ maxRequest
  · obtain ⟨q, heap, bs', heq, halloc, hfit⟩ :=
      hrepr.smalloc_firstFit r.outcome hvalid.1 hvalid.2
    obtain ⟨b, hb, hfree, -⟩ | ⟨-, ⟨hsbrk, rfl, rfl⟩ | ⟨gap, hout, rfl, hbrk'⟩⟩ := hfit
    -- no block is free
    · exact absurd hfree (by rw [hused b hb]; exact Bool.false_ne_true)
    -- there is room, so that `sbrk` has been refused
    · have hnone : r.outcome = none := by
        cases hout : r.outcome with
        | none => rfl
        | some gap =>
          rw [hout, Heap.sbrk, if_pos (hroom gap hout)] at hsbrk
          cases hsbrk
      refine Or.inl ⟨?_, heq⟩
      rw [hnone]
      exact smalloc_of_refused s.brk r.size
    · -- both grant the request
      refine Or.inr ⟨gap, heap, ?_, heq, hbrk', bs', halloc.repr hrepr, ?_⟩
      · rw [hout]
        refine smalloc_of_granted hvalid.1 hvalid.2 ?_
        have hlt := hroom gap hout
        omega
      · rw [← hlength]
        exact used_of_allocates halloc (Nat.succ_ne_zero _) hused
  · -- both refuse a size that is zero or too large
    refine Or.inl ⟨smalloc_of_invalid hvalid, ?_⟩
    rw [Heap.smalloc]
    split_ifs with hzero hmax
    · rfl
    · rfl
    · exact absurd ⟨Nat.pos_of_ne_zero hzero, not_lt.mp hmax⟩ hvalid

theorem Ahead.step {l : Request × ℕ × ℕ} (h : Ahead s) (hst : both.step s l t) : Ahead t := by
  obtain ⟨hroom, hfirst, hsecond, hgranted⟩ := hst
  obtain ⟨hrefused, hrefused'⟩ | ⟨gap, heap, hgrant, hgrant', hbrk', hblocks⟩ := h.smalloc hroom
  · rw [hrefused] at hfirst
    rw [hrefused'] at hsecond
    obtain ⟨hp, hbrk⟩ := Prod.mk.inj hfirst
    obtain ⟨-, hheap⟩ := Prod.mk.inj (Option.some.inj hsecond)
    rw [if_pos hp.symm] at hgranted
    unfold Ahead
    rw [← hbrk, ← hheap, hgranted]
    exact h
  · rw [hgrant] at hfirst
    rw [hgrant'] at hsecond
    obtain ⟨hp, hbrk⟩ := Prod.mk.inj hfirst
    obtain ⟨-, hheap⟩ := Prod.mk.inj (Option.some.inj hsecond)
    -- a pointer of `malloc_1` that was granted is not null
    have hpos := h.1
    have hahead := h.2.1
    rw [if_neg (by omega)] at hgranted
    unfold Ahead
    rw [← hbrk, ← hheap, hgranted]
    refine ⟨by omega, ?_, hblocks⟩
    rw [hbrk', Nat.mul_succ]
    omega

theorem Ahead.of_reachable (h : both.Reachable s) : Ahead s := by
  -- at the start no block has been granted
  refine h.invariant ?_ fun _ _ _ hinv hst => hinv.step hst
  rintro s ⟨hfresh, hbrk, hgranted⟩
  refine ⟨hbrk ▸ hfresh.brk_pos, ?_, [], .fresh hfresh, hgranted.symm, nofun⟩
  rw [hbrk, hgranted]
  rfl

/-- **The two allocators, for a program that frees nothing.** After any requests, whatever `sbrk`
answers, the next request is answered by both, and by both with `NULL` or by neither; and a pointer
of `malloc_2` is the one of `malloc_1` and a header for every block so far, this one included. -/
theorem addresses_shifted (h : both.Reachable s) (r : Request)
    (hroom : ∀ gap, r.outcome = some gap →
      s.heap.brk + gap + (r.size + metadataSize) < wordLimit) :
    ∃ p₁ p₂ t, both.step s (r, p₁, p₂) t ∧
      ((p₁ = 0 ∧ p₂ = 0) ∨
        p₁ ≠ 0 ∧ p₂ = p₁ + metadataSize * (s.granted + 1)) := by
  have hahead := Ahead.of_reachable h
  have hpos := hahead.1
  have hbrk := hahead.2.1
  obtain ⟨hrefused, hrefused'⟩ | ⟨gap, heap, hgrant, hgrant', -⟩ := hahead.smalloc hroom
  · exact ⟨0, 0, s, ⟨hroom, hrefused, hrefused', rfl⟩, Or.inl ⟨rfl, rfl⟩⟩
  · refine ⟨_, _, ⟨s.brk + gap + r.size, heap, s.granted + 1⟩,
      ⟨hroom, hgrant, hgrant', ?_⟩, Or.inr ⟨by omega, ?_⟩⟩
    · exact (if_neg (by dsimp only; omega)).symm
    · rw [hbrk, Nat.mul_succ]
      omega

end

/-- Two calls of `smalloc(8)`: the second pointers are `4104` and `4104 + 64`. -/
theorem addresses_shifted_sample : ∃ s, both.Reachable s ∧ s.brk = 4104 ∧ s.granted = 1 ∧
    ∃ p₁ p₂ t, both.step s (⟨some 0, 8⟩, p₁, p₂) t ∧
      ((p₁ = 0 ∧ p₂ = 0) ∨ p₁ ≠ 0 ∧ p₂ = p₁ + Malloc2.metadataSize * (s.granted + 1)) := by
  obtain ⟨heap, hfirst, hbrk⟩ : ∃ heap,
      Malloc2.freshHeap.smalloc (some 0) 8 = some (4128, heap) ∧ heap.brk = 4136 := ⟨_, rfl, rfl⟩
  have hroom : ∀ brk < 10000, ∀ gap, some 0 = some gap →
      brk + gap + (8 + Malloc2.metadataSize) < wordLimit := by
    intro brk hlt gap hgap
    obtain rfl := Option.some.inj hgap
    simp only [Malloc2.metadataSize, wordLimit]
    omega
  have hinit : both.Reachable ⟨4096, Malloc2.freshHeap, 0⟩ :=
    .of_init ⟨Malloc2.freshHeap_fresh, rfl, rfl⟩
  have hstep : both.step ⟨4096, Malloc2.freshHeap, 0⟩ (⟨some 0, 8⟩, 4096, 4128)
      ⟨4104, heap, 1⟩ := ⟨hroom 4096 (by decide), rfl, hfirst, rfl⟩
  have hreach := hinit.tail hstep
  refine ⟨_, hreach, rfl, rfl, addresses_shifted hreach ⟨some 0, 8⟩ ?_⟩
  dsimp only
  rw [hbrk]
  exact hroom 4136 (by decide)

end OsHomework.Malloc1
