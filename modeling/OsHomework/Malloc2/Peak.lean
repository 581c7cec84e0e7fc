import OsHomework.Malloc2.Paths
import OsHomework.Malloc2.Stats
import Mathlib.Algebra.BigOperators.Group.List.Basic
import Mathlib.Algebra.Group.Action.Defs

/-!
# The footprint of `malloc_2`

Nothing is ever given back by `malloc_2`, and a free block that is too small is of no use to a
request. If every request has the same size, the second cannot happen: a free block always fits, so
that the heap grows only when every block is in use. Then the number of blocks, and with it the
memory that the allocator has taken, is decided by the largest number of blocks that were in use at
the same time, whatever order the calls come in (`peak_footprint`).

What one call does to the list is said once (`exec_shape`): the blocks are the same but for their
flags, or no block is free and there is one more.
-/

namespace OsHomework.Malloc2

open Heap

/-- The bytes that a call asks for. -/
def Call.request : Call → Option ℕ
  | smalloc _ size => some size
  | scalloc _ num size => some (size * num % wordLimit)
  | sfree _ => none
  | srealloc _ _ _ size => some size

/-- A call of the event asks for `n` bytes, if it asks for any. -/
def Event.AsksFor (n : ℕ) : Event → Prop
  | .call c _ => ∀ k ∈ c.request, k = n
  | .write .. => True

/-- The blocks in use, by the statistics of the allocator. -/
def inUse (s : Heap) : ℕ := s._num_allocated_blocks - s._num_free_blocks

/-- A client, with the largest number of blocks that were in use at once. -/
structure Watched where
  session : Session
  peak : ℕ

/-- The runs of a client whose requests are all for `n` bytes. -/
def watched (n : ℕ) : System Watched Event where
  init w := (client Session.issued).init w.session ∧ w.peak = 0
  step w e w' := e.AsksFor n ∧ (client Session.issued).step w.session e w'.session ∧
    w'.peak = max w.peak (inUse w'.session.heap)

section

variable {n size p : ℕ} {s s₁ : Heap} {bs bs₁ : List Blk} {b : Blk}

/-! ### One call -/

/-- All blocks have `n` bytes. -/
def Uniform (n : ℕ) (bs : List Blk) : Prop := ∀ b ∈ bs, b.size = n

/-- What a call does to the list: the same number of blocks, or one more when no block is free. -/
structure Shape (n : ℕ) (bs bs₁ : List Blk) : Prop where
  uniform : Uniform n bs₁
  length : bs₁.length = bs.length ∨ bs₁.length = bs.length + 1 ∧ bs₁.countP Blk.isFree = 0

theorem Shape.rfl (h : Uniform n bs) : Shape n bs bs := ⟨h, Or.inl (Eq.refl _)⟩

theorem Shape.markFree (h : Uniform n bs) (a : ℕ) (v : Bool) :
    Shape n bs (Malloc2.markFree a v bs) := by
  refine ⟨fun b hb => ?_, Or.inl ?_⟩
  · obtain ⟨c, hc, rfl⟩ := mem_markFree.mp hb
    split
    · exact h c hc
    · exact h c hc
  · unfold Malloc2.markFree
    exact List.length_map _

/-- The search fails among blocks of the right size only if none is free. -/
theorem countP_isFree_eq_zero (h : Uniform n bs)
    (hnone : bs.find? (Blk.fitsRequest n) = none) : bs.countP Blk.isFree = 0 := by
  rw [List.countP_eq_zero]
  intro b hb hfree
  have hfit : b.fitsRequest n = true := by
    rw [fitsRequest_iff]
    exact ⟨hfree, (h b hb).ge⟩
  exact absurd hfit (List.find?_eq_none.mp hnone b hb)

theorem Heap.Allocates.shape (ha : Allocates s bs n p s₁ bs₁) (h : Uniform n bs) :
    Shape n bs bs₁ := by
  cases ha with
  | refused hnone => exact .rfl h
  | reused hfind => exact .markFree h _ _
  | grown hnone _ _ _ _ =>
    refine ⟨?_, Or.inr ⟨List.length_append, ?_⟩⟩
    · intro b hb
      obtain hb | hb := List.mem_append.mp hb
      · exact h b hb
      · rw [List.mem_singleton.mp hb]
    · rw [List.countP_append, countP_isFree_eq_zero h hnone]
      rfl

theorem exec_shape (c : Call) (h : s.Repr bs) (hu : Uniform n bs)
    (hask : ∀ k ∈ c.request, k = n) (harg : c.arg = 0 ∨ ∃ b ∈ bs, b.payload = c.arg) :
    ∃ ret s' bs', c.exec s = some (ret, s') ∧ s'.Repr bs' ∧ Shape n bs bs' := by
  cases c with
  | smalloc outcome size =>
    obtain rfl : size = n := hask size rfl
    obtain heq | ⟨p, s₁, bs₁, ha, heq⟩ := h.smalloc outcome size
    · exact ⟨0, s, bs, heq, h, .rfl hu⟩
    · exact ⟨p, s₁, bs₁, heq, ha.repr h, ha.shape hu⟩
  | scalloc outcome num size =>
    obtain heq | ⟨p, s₁, bs₁, ha, heq⟩ := h.scalloc outcome num size
    · exact ⟨0, s, bs, heq, h, .rfl hu⟩
    rw [hask _ rfl] at ha heq
    refine ⟨p, _, bs₁, heq, ?_, ha.shape hu⟩
    split
    · exact ha.repr h
    · next hp =>
      -- the block that is cleared is the one that was granted
      obtain ⟨b, hb, rfl, -, hsize, -⟩ := ha.exists_block h hp
      exact (ha.repr h).memset hb hsize
  | sfree p =>
    obtain hnull | ⟨b, hb, hp⟩ := harg
    · have hp : p = 0 := hnull
      exact ⟨0, s, bs, by rw [hp]; rfl, h, .rfl hu⟩
    · have hp : b.payload = p := hp
      exact ⟨0, s.sfree p, _, rfl, hp ▸ h.sfree hb, .markFree hu _ _⟩
  | srealloc outcome beyond oldp size =>
    obtain rfl : size = n := hask size rfl
    obtain hnull | ⟨b, hb, hp⟩ := harg
    · have hp : oldp = 0 := hnull
      subst hp
      obtain heq | ⟨p, s₁, bs₁, ha, heq⟩ := h.smalloc outcome size
      · exact ⟨0, s, bs, heq, h, .rfl hu⟩
      · exact ⟨p, s₁, bs₁, heq, ha.repr h, ha.shape hu⟩
    · have hp : b.payload = oldp := hp
      subst hp
      obtain heq | ⟨-, heq⟩ | ⟨_, _, _, hsmall, -, -⟩ := h.srealloc hb outcome beyond size
      · exact ⟨0, s, bs, heq, h, .rfl hu⟩
      · exact ⟨b.payload, s, bs, heq, h, .rfl hu⟩
      -- the block is as large as any request
      · exact absurd (hu b hb) hsmall.ne

end

/-! ### Every run -/

/-- The blocks are all of `n` bytes, and there are as many as were in use at once. -/
def PeakInv (n : ℕ) (w : Watched) : Prop :=
  ∃ bs, Counted w.session.heap bs ∧ (∀ p ∈ w.session.issued, ∃ b ∈ bs, b.payload = p) ∧
    Uniform n bs ∧ bs.length = w.peak

theorem inUse_eq {s : Heap} {bs : List Blk} (h : Stats s bs) :
    inUse s = bs.length - bs.countP Blk.isFree := by
  unfold inUse _num_allocated_blocks _num_free_blocks
  rw [h.allocated_blocks, h.free_blocks]

/-- A call that keeps the list, or extends it when no block is free, keeps the peak. -/
theorem Shape.length_eq {n peak : ℕ} {bs bs₁ : List Blk} (h : Shape n bs bs₁)
    (hpeak : bs.length = peak) :
    bs₁.length = max peak (bs₁.length - bs₁.countP Blk.isFree) := by
  obtain hsame | ⟨hmore, hfull⟩ := h.length
  · have hle : bs₁.length - bs₁.countP Blk.isFree ≤ peak :=
      (Nat.sub_le ..).trans (hsame.trans hpeak).le
    rw [max_eq_left hle, hsame, hpeak]
  · rw [hfull, Nat.sub_zero, max_eq_right]
    omega

theorem PeakInv.step {n : ℕ} {w w' : Watched} {e : Event} (h : PeakInv n w)
    (hst : (watched n).step w e w') : PeakInv n w' := by
  obtain ⟨bs, hcounted, hissued, huniform, hpeak⟩ := h
  obtain ⟨hask, hstep, hpeak'⟩ := hst
  obtain ⟨bs', hcounted', hissued'⟩ := StatsInv.step ⟨bs, hcounted, hissued⟩ hstep
  -- the list is determined by the heap
  have hshape : Shape n bs bs' := by
    have hblocks := hcounted'.repr.blocks_eq
    generalize w'.session = u at hstep hblocks
    cases hstep with
    | @call c ret heap harg hexec =>
      obtain ⟨ret', s', bs₁, heq, hrepr, hshape⟩ :=
        exec_shape c hcounted.repr huniform hask (harg.imp_right (hissued c.arg))
      rw [hexec] at heq
      obtain ⟨-, rfl⟩ := Prod.mk.inj (Option.some.inj heq)
      rw [hrepr.blocks_eq] at hblocks
      exact Option.some.inj hblocks ▸ hshape
    | @write p i v hp hi =>
      obtain ⟨b, hb, rfl⟩ := hissued p hp
      have hhdr : b.payload - metadataSize = b.addr := Nat.add_sub_cancel _ _
      rw [hhdr, hcounted.repr.size_eq b hb] at hi
      rw [(hcounted.repr.write hb hi v).blocks_eq] at hblocks
      exact Option.some.inj hblocks ▸ Shape.rfl huniform
  refine ⟨bs', hcounted', hissued', hshape.uniform, ?_⟩
  rw [hpeak', inUse_eq hcounted'.stats]
  exact hshape.length_eq hpeak

theorem PeakInv.of_reachable {n : ℕ} {w : Watched} (h : (watched n).Reachable w) :
    PeakInv n w := by
  refine h.invariant ?_ fun _ _ _ hinv hst => hinv.step hst
  rintro w ⟨⟨hfresh, hissued, -⟩, hpeak⟩
  refine ⟨[], ⟨.fresh hfresh, .fresh hfresh⟩, fun p hp => ?_, nofun, hpeak.symm⟩
  rw [hissued] at hp
  exact absurd hp (Set.notMem_empty p)

theorem sum_size_of_uniform {n : ℕ} {bs : List Blk} (h : Uniform n bs) :
    (bs.map Blk.size).sum = bs.length * n := by
  rw [List.sum_eq_card_nsmul (bs.map Blk.size) n, List.length_map, smul_eq_mul]
  intro k hk
  obtain ⟨b, hb, rfl⟩ := List.mem_map.mp hk
  exact h b hb

/-- **The footprint.** If all requests are for `n` bytes, then along every run, whatever `sbrk`
answers and in whatever order blocks are freed, the allocator has as many blocks as were in use at
once, and it has taken `n` bytes and a header for each of them. -/
theorem peak_footprint {n : ℕ} {w : Watched} (h : (watched n).Reachable w) :
    w.session.heap._num_allocated_blocks = w.peak ∧
      w.session.heap._num_allocated_bytes = w.peak * n ∧
      w.session.heap._num_meta_data_bytes = metadataSize * w.peak := by
  obtain ⟨bs, hcounted, -, huniform, hpeak⟩ := PeakInv.of_reachable h
  have hstats := hcounted.stats
  rw [← hpeak]
  refine ⟨hstats.allocated_blocks, ?_, hstats.meta_data_bytes⟩
  exact hstats.allocated_bytes.trans (sum_size_of_uniform huniform)

/-- A program that calls `smalloc(8)`, frees the block and calls `smalloc(8)` again, where the
second call needs no `sbrk`. -/
theorem peak_footprint_sample : ∃ w, (watched 8).Reachable w ∧ w.session.live = {4128} ∧
    w.peak = 1 ∧ w.session.heap._num_allocated_blocks = w.peak := by
  obtain ⟨h₁, hfirst, hone, hzero, h₂, hagain, htwo⟩ :
      ∃ h₁, freshHeap.smalloc (some 0) 8 = some (4128, h₁) ∧ inUse h₁ = 1 ∧
        inUse (h₁.sfree 4128) = 0 ∧ ∃ h₂, (h₁.sfree 4128).smalloc none 8 = some (4128, h₂) ∧
          inUse h₂ = 1 := ⟨_, rfl, rfl, rfl, _, rfl, rfl⟩
  have hstart : (watched 8).Reachable ⟨⟨freshHeap, ∅, ∅⟩, 0⟩ :=
    .of_init ⟨⟨freshHeap_fresh, rfl, rfl⟩, rfl⟩
  have hsmalloc : (watched 8).step ⟨⟨freshHeap, ∅, ∅⟩, 0⟩ (.call (.smalloc (some 0) 8) 4128)
      ⟨⟨h₁, insert 4128 ∅, insert 4128 ∅⟩, 1⟩ :=
    ⟨fun k hk => (Option.some.inj hk).symm, .call (Or.inl rfl) hfirst, by rw [hone]; rfl⟩
  have hfree : (watched 8).step ⟨⟨h₁, insert 4128 ∅, insert 4128 ∅⟩, 1⟩ (.call (.sfree 4128) 0)
      ⟨⟨h₁.sfree 4128, insert 4128 ∅, insert 4128 ∅ \ {4128}⟩, 1⟩ :=
    ⟨nofun, .call (Or.inr (Set.mem_insert _ _)) rfl, by rw [hzero]; rfl⟩
  have hsecond : (watched 8).step
      ⟨⟨h₁.sfree 4128, insert 4128 ∅, insert 4128 ∅ \ {4128}⟩, 1⟩
      (.call (.smalloc none 8) 4128)
      ⟨⟨h₂, insert 4128 (insert 4128 ∅), insert 4128 (insert 4128 ∅ \ {4128})⟩, 1⟩ :=
    ⟨fun k hk => (Option.some.inj hk).symm, .call (Or.inl rfl) hagain, by rw [htwo]; rfl⟩
  have hreach := ((hstart.tail hsmalloc).tail hfree).tail hsecond
  refine ⟨_, hreach, ?_, rfl, (peak_footprint hreach).1⟩
  dsimp only
  rw [Set.insert_sdiff_singleton, insert_empty_eq, Set.insert_eq_of_mem (Set.mem_singleton 4128)]

end OsHomework.Malloc2
