import OsHomework.Malloc2.Blocks

/-!
# The statistics of `malloc_2`

Five counters are kept by hand beside the list. `Stats s bs` says that each of them is the number it
stands for, as a natural number and not only modulo `2 ^ 64`: the blocks lie below the break, so the
sums cannot wrap. Allocating and freeing keep it, and a refused call changes nothing it speaks
about, in every run of a client that passes any pointer it was ever given, freed or not.
-/

namespace OsHomework.Malloc2

open Heap

/-- The bytes in free blocks. -/
def freeBytes (bs : List Blk) : ℕ := ((bs.filter Blk.isFree).map Blk.size).sum

/-- The counters agree with the list. -/
structure Stats (s : Heap) (bs : List Blk) : Prop where
  allocated_blocks : s.num_of_allocated_blocks = bs.length
  allocated_bytes : s.num_of_allocated_bytes = (bs.map Blk.size).sum
  free_blocks : s.num_of_free_blocks = bs.countP Blk.isFree
  free_bytes : s.num_of_free_bytes = freeBytes bs
  meta_data_bytes : s.num_of_meta_data_bytes = metadataSize * bs.length

section Sums

variable {pre post : List Blk} {b : Blk}

theorem freeBytes_append : freeBytes (pre ++ post) = freeBytes pre + freeBytes post := by
  rw [freeBytes, List.filter_append, List.map_append, List.sum_append]
  rfl

theorem freeBytes_cons :
    freeBytes (b :: post) = (if b.isFree then b.size else 0) + freeBytes post := by
  unfold freeBytes
  by_cases hb : b.isFree = true
  · rw [List.filter_cons_of_pos hb, List.map_cons, List.sum_cons, if_pos hb]
  · rw [List.filter_cons_of_neg hb, if_neg hb, Nat.zero_add]

theorem freeBytes_le (bs : List Blk) : freeBytes bs ≤ (bs.map Blk.size).sum := by
  induction bs with
  | nil => exact le_rfl
  | cons b bs ih =>
    rw [freeBytes_cons, List.map_cons, List.sum_cons]
    split_ifs <;> omega

/-- A decrement of a `size_t` that stays above zero. -/
theorem wrap_sub {n k : ℕ} (hk : k ≤ n) (hn : n < wordLimit) :
    (n + wordLimit - k) % wordLimit = n - k := by
  rw [show n + wordLimit - k = n - k + wordLimit by omega, Nat.add_mod_right,
    Nat.mod_eq_of_lt (by omega)]

end Sums

namespace Stats

variable {s s' s₁ : Heap} {bs bs₁ : List Blk} {b : Blk} {size p : ℕ}

theorem fresh (h : s.Fresh) : Stats s [] where
  allocated_blocks := h.allocated_blocks
  allocated_bytes := h.allocated_bytes
  free_blocks := h.free_blocks
  free_bytes := h.free_bytes
  meta_data_bytes := h.meta_data_bytes

/-- A free block is among those counted: neither decrement can wrap. -/
theorem free_le (h : Stats s bs) (hb : b ∈ bs) (hfree : b.isFree = true) :
    1 ≤ s.num_of_free_blocks ∧ b.size ≤ s.num_of_free_bytes := by
  obtain ⟨pre, post, rfl⟩ := List.append_of_mem hb
  have hblocks := h.free_blocks
  -- the block is one of those that the two counters count
  have hbytes := h.free_bytes
  rw [List.countP_append, List.countP_cons_of_pos hfree] at hblocks
  rw [freeBytes_append, freeBytes_cons, if_pos hfree] at hbytes
  omega

/-- The counters of all blocks do not see the flags. -/
theorem totals_markFree (h : Stats s bs) (hr : s.Repr bs) (hb : b ∈ bs) (v : Bool) :
    s.num_of_allocated_blocks = (markFree b.addr v bs).length ∧
      s.num_of_allocated_bytes = ((markFree b.addr v bs).map Blk.size).sum ∧
      s.num_of_meta_data_bytes = metadataSize * (markFree b.addr v bs).length := by
  obtain ⟨pre, post, hbs, hmark⟩ := hr.exists_split hb
  have hlen : (markFree b.addr v bs).length = bs.length := by
    rw [hmark, hbs, List.length_append, List.length_append, List.length_cons, List.length_cons]
  -- the flag of a block is not a part of its size
  have hsizes : (markFree b.addr v bs).map Blk.size = bs.map Blk.size := by
    rw [hmark, hbs, List.map_append, List.map_append, List.map_cons, List.map_cons]
  rw [hlen, hsizes]
  exact ⟨h.allocated_blocks, h.allocated_bytes, h.meta_data_bytes⟩

theorem reuse (h : Stats s bs) (hr : s.Repr bs) (hb : b ∈ bs) (hfree : b.isFree = true) :
    Stats (s.reuse b.addr) (markFree b.addr false bs) := by
  obtain ⟨h1, h2⟩ := h.free_le hb hfree
  obtain ⟨hcount, hsum, hmeta⟩ := h.totals_markFree hr hb false
  have htotal := hr.total_le
  have hbrk := hr.brk_lt
  have hlen := hr.length_lt
  have hle := freeBytes_le bs
  have hcount' : bs.countP Blk.isFree ≤ bs.length := List.countP_le_length
  have hblocks := h.free_blocks
  have hbytes := h.free_bytes
  obtain ⟨pre, post, hbs, hmark⟩ := hr.exists_split hb
  constructor
  case allocated_blocks => simpa only [Heap.reuse, assign] using hcount
  case allocated_bytes => simpa only [Heap.reuse, assign] using hsum
  case meta_data_bytes => simpa only [Heap.reuse, assign] using hmeta
  case free_blocks =>
    simp only [Heap.reuse]
    rw [wrap_sub h1 (by omega), hblocks, hmark, hbs, List.countP_append, List.countP_append,
      List.countP_cons_of_pos hfree, List.countP_cons_of_neg Bool.false_ne_true]
    omega
  case free_bytes =>
    simp only [Heap.reuse]
    rw [hr.size_eq b hb, wrap_sub h2 (by omega), hbytes, hmark, hbs, freeBytes_append,
      freeBytes_append, freeBytes_cons, freeBytes_cons, if_pos hfree, if_neg Bool.false_ne_true]
    omega

/-- The allocation path keeps the counters in step. -/
theorem allocates (h : Stats s bs) (hr : s.Repr bs) (ha : Allocates s bs size p s₁ bs₁) :
    Stats s₁ bs₁ := by
  have htotal := (ha.repr hr).total_le
  have hbrk := (ha.repr hr).brk_lt
  cases ha with
  | refused => exact h
  | reused hfind =>
    have hfit := List.find?_some hfind
    rw [Blk.fitsRequest, Bool.and_eq_true] at hfit
    -- the block that is reused was free, so both decrements are of at least that much
    exact h.reuse hr (List.mem_of_find?_eq_some hfind) hfit.2
  | grown hnone hle hlt hrepr hmem =>
    -- a new block raises three counters; its end lies below the break, so none wraps
    have hblocks := h.allocated_blocks
    have hbytes := h.allocated_bytes
    have hmeta := h.meta_data_bytes
    simp only [List.length_append, List.length_singleton, List.map_append, List.map_cons,
      List.map_nil, List.sum_append, List.sum_singleton, metadataSize] at htotal hlt hmeta
    constructor
    case allocated_blocks =>
      simp only [countNew]
      rw [hblocks, List.length_append, List.length_singleton, Nat.mod_eq_of_lt (by omega)]
    case allocated_bytes =>
      simp only [countNew]
      rw [hbytes, List.map_append, List.sum_append, Nat.mod_eq_of_lt (by omega)]
      simp
    case free_blocks =>
      simp only [countNew]
      rw [h.free_blocks, List.countP_append, List.countP_singleton, if_neg Bool.false_ne_true,
        Nat.add_zero]
    case free_bytes =>
      simp only [countNew]
      rw [h.free_bytes, freeBytes_append, freeBytes_cons, if_neg Bool.false_ne_true]
      rfl
    case meta_data_bytes =>
      simp only [countNew]
      rw [hmeta, List.length_append, List.length_singleton, metadataSize,
        Nat.mod_eq_of_lt (by omega), Nat.mul_add, Nat.mul_one]

theorem sfree (h : Stats s bs) (hr : s.Repr bs) (hb : b ∈ bs) :
    Stats (s.sfree b.payload) (markFree b.addr true bs) := by
  rw [hr.sfree_eq hb]
  by_cases hfree : b.isFree = true
  · -- a second `sfree` changes nothing
    rw [if_pos hfree, hr.markFree_of_isFree hb hfree]
    exact h
  rw [if_neg hfree]
  obtain ⟨hcount, hsum, hmeta⟩ := h.totals_markFree hr hb true
  -- after the increments the counters are those of the new list, which is below the break too
  have htotal := (hr.sfree hb).total_le
  have hlen := (hr.sfree hb).length_lt
  have hbrk := (hr.sfree hb).brk_lt
  have hle := freeBytes_le (markFree b.addr true bs)
  have hcount' : (markFree b.addr true bs).countP Blk.isFree ≤ _ := List.countP_le_length
  obtain ⟨pre, post, hbs, hmark⟩ := hr.exists_split hb
  have hblocks : (markFree b.addr true bs).countP Blk.isFree = bs.countP Blk.isFree + 1 := by
    rw [hmark, hbs, List.countP_append, List.countP_append, List.countP_cons_of_neg hfree,
      List.countP_cons_of_pos rfl]
    omega
  have hbytes : freeBytes (markFree b.addr true bs) = freeBytes bs + b.size := by
    have hbefore : freeBytes bs = freeBytes pre + freeBytes post := by
      rw [hbs, freeBytes_append, freeBytes_cons, if_neg hfree, Nat.zero_add]
    have hafter : freeBytes (markFree b.addr true bs) =
        freeBytes pre + (b.size + freeBytes post) := by
      rw [hmark, freeBytes_append, freeBytes_cons, if_pos rfl]
    calc freeBytes (markFree b.addr true bs)
        = freeBytes pre + (b.size + freeBytes post) := hafter
      _ = freeBytes pre + freeBytes post + b.size := by ring
      _ = freeBytes bs + b.size := by rw [hbefore]
  constructor
  case allocated_blocks => simpa only [assign] using hcount
  case allocated_bytes => simpa only [assign] using hsum
  case meta_data_bytes => simpa only [assign] using hmeta
  case free_blocks =>
    simp only
    rw [h.free_blocks, ← hblocks, Nat.mod_eq_of_lt (by omega)]
  case free_bytes =>
    simp only
    rw [h.free_bytes, ← hbytes, Nat.mod_eq_of_lt (by omega)]

/-- Only the counters matter. -/
theorem of_mem (h : Stats s bs) (m : Mem) : Stats { s with mem := m } bs :=
  ⟨h.allocated_blocks, h.allocated_bytes, h.free_blocks, h.free_bytes, h.meta_data_bytes⟩

end Stats

/-! ### Every call -/

/-- The heap holds `bs` and counts them. -/
structure Counted (s : Heap) (bs : List Blk) : Prop where
  repr : s.Repr bs
  stats : Stats s bs

section Calls

variable {s s₁ : Heap} {bs bs₁ : List Blk} {b : Blk} {size p : ℕ}

theorem Counted.allocates (h : Counted s bs) (ha : Allocates s bs size p s₁ bs₁) :
    Counted s₁ bs₁ := ⟨ha.repr h.repr, h.stats.allocates h.repr ha⟩

theorem Counted.sfree (h : Counted s bs) (hb : b ∈ bs) :
    Counted (s.sfree b.payload) (markFree b.addr true bs) :=
  ⟨h.repr.sfree hb, h.stats.sfree h.repr hb⟩

theorem Counted.blit (h : Counted s bs) (hb : b ∈ bs) {n : ℕ} (hn : n ≤ b.size) (f : ℕ → UInt8) :
    Counted { s with mem := s.mem.blit b.payload n f } bs :=
  ⟨h.repr.blit hb hn f, h.stats.of_mem _⟩

/-- What a call leaves behind: the counters in step, every block at its place, the pointer it
returned among the blocks, and, if it was to return a pointer and did not, the heap as it was. -/
structure CallOutcome (c : Call) (s : Heap) (bs : List Blk) (ret : ℕ) (s' : Heap)
    (bs' : List Blk) : Prop where
  counted : Counted s' bs'
  places : ∀ b ∈ bs, ∃ d ∈ bs', d.payload = b.payload
  issued : ret ≠ 0 → ∃ d ∈ bs', d.payload = ret
  refused : c.returns = true → ret = 0 → s' = s

/-- A call that returns at once with the heap it found. -/
theorem CallOutcome.same {c : Call} {ret : ℕ} (h : Counted s bs)
    (hret : ret ≠ 0 → ∃ d ∈ bs, d.payload = ret) : CallOutcome c s bs ret s bs :=
  ⟨h, fun b hb => ⟨b, hb, rfl⟩, hret, fun _ _ => rfl⟩

/-- An allocation, with work in the payload of the block it returns. -/
theorem CallOutcome.of_allocates {c : Call} (h : Counted s bs) (ha : Allocates s bs size p s₁ bs₁) :
    CallOutcome c s bs p s₁ bs₁ := by
  refine ⟨h.allocates ha, fun b hb => ha.payload_mem hb, fun hp => ?_, fun _ hp => ?_⟩
  · obtain ⟨b, hb, hbp, -⟩ := ha.exists_block h.repr hp
    exact ⟨b, hb, hbp⟩
  · exact (ha.eq_of_null h.repr hp).1

theorem CallOutcome.smalloc {c : Call} (h : Counted s bs) (outcome : Option ℕ) (size : ℕ) :
    ∃ ret s' bs', s.smalloc outcome size = some (ret, s') ∧ CallOutcome c s bs ret s' bs' := by
  obtain heq | ⟨p, s₁, bs₁, ha, heq⟩ := h.repr.smalloc outcome size
  · exact ⟨0, s, bs, heq, .same h fun h0 => absurd rfl h0⟩
  · exact ⟨p, s₁, bs₁, heq, .of_allocates h ha⟩

theorem CallOutcome.scalloc {c : Call} (h : Counted s bs) (outcome : Option ℕ) (num size : ℕ) :
    ∃ ret s' bs', s.scalloc outcome num size = some (ret, s') ∧ CallOutcome c s bs ret s' bs' := by
  obtain heq | ⟨p, s₁, bs₁, ha, heq⟩ := h.repr.scalloc outcome num size
  · exact ⟨0, s, bs, heq, .same h fun h0 => absurd rfl h0⟩
  have hout : CallOutcome c s bs p s₁ bs₁ := .of_allocates h ha
  by_cases hp : p = 0
  · rw [if_pos hp] at heq
    exact ⟨p, s₁, bs₁, heq, hout⟩
  · rw [if_neg hp] at heq
    obtain ⟨b, hb, rfl, -, hsize, -⟩ := ha.exists_block h.repr hp
    exact ⟨_, _, bs₁, heq, hout.counted.blit hb hsize fun _ => 0, hout.places, hout.issued,
      fun _ h0 => absurd h0 hp⟩

theorem CallOutcome.srealloc {c : Call} (h : Counted s bs) (hb : b ∈ bs) (outcome : Option ℕ)
    (beyond : ℕ → UInt8) (size : ℕ) :
    ∃ ret s' bs', s.srealloc outcome beyond b.payload size = some (ret, s') ∧
      CallOutcome c s bs ret s' bs' := by
  obtain heq | ⟨-, heq⟩ | ⟨p, s₁, bs₁, hsmall, ha, heq⟩ := h.repr.srealloc hb outcome beyond size
  · exact ⟨0, s, bs, heq, .same h fun h0 => absurd rfl h0⟩
  · exact ⟨_, s, bs, heq, .same h fun _ => ⟨b, hb, rfl⟩⟩
  have hout : CallOutcome c s bs p s₁ bs₁ := .of_allocates h ha
  by_cases hp : p = 0
  · rw [if_pos hp] at heq
    exact ⟨p, s₁, bs₁, heq, hout⟩
  · rw [if_neg hp] at heq
    -- the copy stays in the new block, so the old one can be freed as it stands
    obtain ⟨d, hd, rfl, -, hsize, -⟩ := ha.exists_block h.repr hp
    have hcopied := hout.counted.blit hd hsize
      fun i => if i < b.size then s₁.mem (b.payload + i) else beyond i
    have hold : b ∈ bs₁ := (ha.small_mem h.repr hb hsmall).1
    refine ⟨_, _, _, heq, hcopied.sfree hold, fun e he => ?_, fun _ => payload_mem_markFree hd,
      fun _ h0 => absurd h0 hp⟩
    obtain ⟨f, hf, hfe⟩ := hout.places e he
    obtain ⟨g, hg, hgf⟩ := payload_mem_markFree (a := b.addr) (v := true) hf
    exact ⟨g, hg, hgf.trans hfe⟩

/-- **Every call** with `NULL` or the payload of a block returns, with the counters in step. -/
theorem CallOutcome.exec (c : Call) (h : Counted s bs)
    (harg : c.arg = 0 ∨ ∃ b ∈ bs, b.payload = c.arg) :
    ∃ ret s' bs', c.exec s = some (ret, s') ∧ CallOutcome c s bs ret s' bs' := by
  cases c with
  | smalloc outcome size => exact CallOutcome.smalloc h outcome size
  | scalloc outcome num size => exact CallOutcome.scalloc h outcome num size
  | sfree p =>
    obtain rfl | ⟨b, hb, rfl⟩ := harg
    · exact ⟨0, s, bs, rfl, .same h fun h0 => absurd rfl h0⟩
    · exact ⟨0, _, _, rfl, h.sfree hb, fun _ hd => payload_mem_markFree hd,
        fun h0 => absurd rfl h0, fun hret => Bool.noConfusion hret⟩
  | srealloc outcome beyond oldp size =>
    obtain rfl | ⟨b, hb, rfl⟩ := harg
    · exact CallOutcome.smalloc h outcome size
    · exact CallOutcome.srealloc h hb outcome beyond size

end Calls

/-! ### Every run -/

/-- The blocks are counted and the client's pointers are among them. -/
def StatsInv (t : Session) : Prop :=
  ∃ bs, Counted t.heap bs ∧ ∀ p ∈ t.issued, ∃ b ∈ bs, b.payload = p

/-- One event keeps the invariant. -/
theorem StatsInv.step {t u : Session} {e : Event} (h : StatsInv t)
    (hstep : Step Session.issued t e u) : StatsInv u := by
  obtain ⟨bs, hcounted, hissued⟩ := h
  cases hstep with
  | @call c ret heap harg hexec =>
    obtain ⟨ret', s', bs', heq, hout⟩ :=
      CallOutcome.exec c hcounted (harg.imp_right (hissued c.arg))
    rw [hexec, Option.some.injEq, Prod.mk.injEq] at heq
    obtain ⟨rfl, rfl⟩ := heq
    -- no block moves, so that an old pointer still leads to one
    have hplaces : ∀ p ∈ t.issued, ∃ d ∈ bs', d.payload = p := by
      intro p hp
      obtain ⟨b, hb, rfl⟩ := hissued p hp
      exact hout.places b hb
    refine ⟨bs', hout.counted, fun p hp => ?_⟩
    dsimp only at hp
    split_ifs at hp with hret
    · exact hplaces p hp
    · obtain rfl | hp := Set.mem_insert_iff.mp hp
      · exact hout.issued hret
      · exact hplaces p hp
  | @write p i v hp hi =>
    obtain ⟨b, hb, rfl⟩ := hissued p hp
    have hhdr : b.payload - metadataSize = b.addr := Nat.add_sub_cancel _ _
    rw [hhdr, hcounted.repr.size_eq b hb] at hi
    exact ⟨bs, ⟨hcounted.repr.write hb hi v, hcounted.stats.of_mem _⟩, hissued⟩

theorem StatsInv.of_reachable {t : Session} (h : (client Session.issued).Reachable t) :
    StatsInv t := by
  refine h.invariant (fun t ht => ?_) fun _ _ _ hinv hstep => hinv.step hstep
  obtain ⟨hfresh, hissued, -⟩ := ht
  refine ⟨[], ⟨.fresh hfresh, .fresh hfresh⟩, fun p hp => ?_⟩
  rw [hissued] at hp
  exact absurd hp (Set.notMem_empty p)

/-- **The statistics agree with the list.** In every state a client can reach that passes `NULL` or
any pointer it was ever given, whatever `sbrk` answers: the traversal of `globalPointersList` ends,
and the five counters are the numbers and sums of its blocks; the block a search finds is counted as
free, so that no decrement wraps; and every call returns, leaving the heap as it was when it returns
no pointer. -/
theorem statistics_agree {t : Session} (h : (client Session.issued).Reachable t) :
    (∃ bs, t.heap.blocks = some bs ∧
      t.heap._num_allocated_blocks = bs.length ∧
      t.heap._num_allocated_bytes = (bs.map Blk.size).sum ∧
      t.heap._num_free_blocks = bs.countP Blk.isFree ∧
      t.heap._num_free_bytes = ((bs.filter Blk.isFree).map Blk.size).sum ∧
      t.heap._num_meta_data_bytes = metadataSize * bs.length) ∧
    (∀ size p, t.heap.findFree size = some p → p ≠ 0 →
      1 ≤ t.heap.num_of_free_blocks ∧ t.heap.size p ≤ t.heap.num_of_free_bytes) ∧
    (∀ c : Call, c.arg = 0 ∨ c.arg ∈ t.issued → ∃ ret heap, c.exec t.heap = some (ret, heap) ∧
      (c.returns = true → ret = 0 → heap = t.heap)) := by
  obtain ⟨bs, hcounted, hissued⟩ := StatsInv.of_reachable h
  have hrepr := hcounted.repr
  have hstats := hcounted.stats
  refine ⟨⟨bs, hrepr.blocks_eq, hstats.allocated_blocks, hstats.allocated_bytes,
    hstats.free_blocks, hstats.free_bytes, hstats.meta_data_bytes⟩, fun size p hfind hp => ?_,
    fun c harg => ?_⟩
  · -- the block that is found is one of those the counters count
    rw [hrepr.findFree_eq, Option.some.injEq] at hfind
    cases hb : bs.find? (Blk.fitsRequest size) with
    | none => exact absurd (hfind.symm.trans (congrArg (Option.elim · 0 Blk.addr) hb)) hp
    | some b =>
      rw [hb, Option.elim_some] at hfind
      have hmem := List.mem_of_find?_eq_some hb
      have hfit := List.find?_some hb
      rw [Blk.fitsRequest, Bool.and_eq_true] at hfit
      rw [← hfind, hrepr.size_eq b hmem]
      exact hstats.free_le hmem hfit.2
  · obtain ⟨ret, s', bs', heq, hout⟩ :=
      CallOutcome.exec c hcounted (harg.imp_right (hissued c.arg))
    exact ⟨ret, s', heq, hout.refused⟩

/-- The theorem after such a run, for a second `sfree` of the pointer that `srealloc` was given. -/
theorem statistics_agree_sample :
    ∃ t, (client Session.issued).Reachable t ∧ t.issued = {4128, 4200, 4240} ∧
      (∃ bs, t.heap.blocks = some bs ∧ t.heap._num_free_blocks = bs.countP Blk.isFree) ∧
      ∃ ret heap, (Call.sfree 4200).exec t.heap = some (ret, heap) := by
  obtain ⟨s, es, t, hs, hrun, hissued, -⟩ := exists_moved Session.issued fun _ _ _ hp => hp
  have hreach : (client Session.issued).Reachable t := ⟨s, es, hs, hrun⟩
  obtain ⟨⟨bs, hbs, -, -, hfree, -⟩, -, hcalls⟩ := statistics_agree hreach
  -- a second `sfree` of the block that was left behind
  have harg : 4200 ∈ t.issued := by
    rw [hissued]
    exact Set.mem_insert_of_mem _ (Set.mem_insert _ _)
  obtain ⟨ret, heap, hexec, -⟩ := hcalls (.sfree 4200) (Or.inr harg)
  exact ⟨t, hreach, hissued, ⟨bs, hbs, hfree⟩, ret, heap, hexec⟩

end OsHomework.Malloc2
