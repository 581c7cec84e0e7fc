import OsHomework.Malloc3.BestFit
import OsHomework.Malloc3.Grow

/-!
# `srealloc` of a pool block

A block that is too small is made larger in place if the header at its buddy address is marked free,
and is moved otherwise. Moving is sound (`Ready.sreallocTraced_move`): the old block is marked free,
`smalloc` cannot choose it, and if there is no memory the flag is taken back. Growing in place ends
in one of three ways (`Ready.growsInPlace`), of which one is out of bounds and one leaves the result
without a value.
-/

namespace OsHomework.Malloc3

variable {r : ℕ × ℕ} {s t : Heap} {P P' : Lists} {os : Answers} {i : Slot} {b c : Blk}
  {junk k n q size : ℕ}

/-! ### The branches -/

/-- The work on `newMD` that both branches end with. -/
def Heap.finishCopy (s : Heap) (newMD : ℕ) (b : Blk) : Option (Option Copy × ℕ × Heap) :=
  ((s.memmove ⟨newMD, b.payload, MD.size s.mem b.addr⟩).releaseMapped b.addr).map
    fun t => (some ⟨newMD, b.payload, MD.size s.mem b.addr⟩, newMD, t)

/-- **`srealloc` of a pool block**, branch by branch. -/
theorem Ready.sreallocTraced_eq (h : Ready r s P) (hb : b ∈ P (.order k)) (hsize : 1 ≤ size) :
    s.sreallocTraced os junk b.payload size =
      if (size + metadataSize) % wordLimit ≤ b.size then some (none, b.payload, s)
      else if MD.isFree s.mem (b.addr ^^^ b.size) then
        (Heap.growLoop b.addr ((size + metadataSize) % wordLimit) wordLimit
          (b.addr ^^^ b.size) s).bind
          fun x => x.2.finishCopy (x.1.getD junk) b
      else
        ((s.setMem (metadata.set .is_free s.mem b.addr 1)).smalloc os size).bind fun x =>
          if x.1 = 0 then some (none, 0, x.2.setMem (metadata.set .is_free x.2.mem b.addr 0))
          else x.2.finishCopy x.1 b := by
  have hnode := h.repr.node _ _ hb
  have hmmap : MD.isMmap s.mem b.addr = false := hnode.isMmap
  -- a pool block is not mapped, so the two tests of the source are one
  have hkeep : (b.size = (size + metadataSize) % wordLimit ∨
      (size + metadataSize) % wordLimit ≤ b.size ∧ MD.isMmap s.mem b.addr = false) ↔
      (size + metadataSize) % wordLimit ≤ b.size := by
    rw [hmmap]
    simp only [and_true]
    omega
  rw [Heap.sreallocTraced, if_neg (Nat.pos_iff_ne_zero.mp hsize), if_neg b.payload_ne_zero]
  simp only [Blk.payload_sub, hnode.size, hkeep, Heap.findNeighboringBlock_ChallengeOne]
  split_ifs with hroom hfree
  · rfl
  · -- the branch that merges
    cases Heap.growLoop b.addr ((size + metadataSize) % wordLimit) wordLimit
      (b.addr ^^^ b.size) s with
    | none => rfl
    | some x =>
      simp only [Option.bind_eq_bind, Option.bind_some, Heap.finishCopy, Option.map_eq_bind]
      rfl
  · -- the branch that moves
    cases (s.setMem (metadata.set .is_free s.mem b.addr 1)).smalloc os size with
    | none => rfl
    | some x =>
      simp only [Option.bind_eq_bind, Option.bind_some, Heap.finishCopy, Option.map_eq_bind]
      rfl

theorem Ready.isMmap_eq (h : s.Repr P) (hb : b ∈ P (.order k)) : MD.isMmap s.mem b.addr = false :=
  (h.node _ _ hb).isMmap

/-! ### Growing in place -/

/-- The header that the loop reads in each round lies on the grid. -/
theorem Ready.grid_xor {l : ℕ} (h : Ready r s P) (hb : b ∈ P (.order k)) (hl : l < maxOrder) :
    b.addr ^^^ sizeAt l ∈ Ready.grid r P := by
  refine Or.inl ⟨xor_mem_arena h.tiling.base_dvd
    (h.tiling.tiles.subset ⟨k, hb⟩ (h.tiling.addr_mem_range ⟨k, hb⟩))
    ((sizeAt_lt_128K hl.le).mpr hl), ?_⟩
  have haddr := Nat.mod_eq_zero_of_dvd (h.tiling.dvd_128 ⟨k, hb⟩).2
  have hsize : sizeAt l % 2 ^ 7 = 0 := by
    rw [sizeAt_eq hl.le]
    exact Nat.mul_mod_right _ _
  apply Nat.dvd_of_mod_eq_zero
  rw [show 128 = 2 ^ 7 from rfl] at haddr ⊢
  rw [Nat.xor_mod_two_pow, haddr, hsize, Nat.xor_self]

theorem Ready.growLoop {new_size : ℕ} (h : Ready r s P) (hb : b ∈ P (.order k))
    (hbf : b.isFree = false) (hgrow : b.size < new_size) :
    GrowEnds (Ready.grid r P) b.addr k new_size s P
      (Heap.growLoop b.addr new_size wordLimit (b.addr ^^^ b.size) s) := by
  obtain ⟨hk, hsize⟩ := h.tiling.sized k b hb
  rw [hsize] at hgrow ⊢
  refine growLoop_ends h.repr h.apart_grid h.addrs_subset_grid ?_ hk hgrow
    (fun l hl => h.grid_xor hb hl) ?_
  · rw [← hsize, ← hbf]
    exact hb
  · have hword : maxOrder < wordLimit := by decide
    omega

/-- A copy of a payload onto itself. -/
theorem Heap.finishCopy_self (h : s.Repr P) (hb : c ∈ P (.order n)) (haddr : c.addr = b.addr) :
    s.finishCopy b.payload b = some (some ⟨b.payload, b.payload, c.size⟩, b.payload, s) := by
  have hcopy : s.memmove ⟨b.payload, b.payload, c.size⟩ = s := by
    rw [Heap.memmove, Mem.blit_self]
    rfl
  have hmmap : ¬ MD.isMmap s.mem b.addr = true := by
    rw [← haddr, Ready.isMmap_eq h hb]
    exact Bool.false_ne_true
  rw [Heap.finishCopy, ← haddr, (h.node _ _ hb).size, haddr, hcopy, Heap.releaseMapped,
    if_neg hmmap]
  rfl

/-- How `srealloc` ends when the header at the buddy address is marked free. -/
inductive GrowsInPlace (r : ℕ × ℕ) (s : Heap) (P : Lists) (os : Answers) (b : Blk)
    (k size : ℕ) : Prop
  | outOfBounds (hbig : sizeAt maxOrder < size + metadataSize)
      (heq : ∀ junk, s.sreallocTraced os junk b.payload size = none)
  /-- With the payload itself in the place of the missing result. -/
  | unassigned {n : ℕ} {t : Heap} {P' : Lists} (hgrown : Grown (Ready.grid r P) b.addr k n s P t P')
      (hkn : k ≤ n) (hn : n ≤ maxOrder) (hsmall : sizeAt n < size + metadataSize)
      (hstop : n < maxOrder → ¬ PassesTest s.mem (b.addr ^^^ sizeAt n))
      (heq : s.sreallocTraced os b.payload b.payload size
        = some (some ⟨b.payload, b.payload, sizeAt n⟩, b.payload, t))
  | assigned {n : ℕ} {t : Heap} {P' : Lists} (hgrown : Grown (Ready.grid r P) b.addr k n s P t P')
      (hkn : k < n) (hn : n ≤ maxOrder) (hfits : size + metadataSize ≤ sizeAt n)
      (hsmall : sizeAt (n - 1) < size + metadataSize)
      (heq : ∀ junk, s.sreallocTraced os junk b.payload size
        = some (some ⟨b.payload, b.payload, sizeAt n⟩, b.payload, t))

theorem Ready.growsInPlace (h : Ready r s P) (hb : b ∈ P (.order k)) (hbf : b.isFree = false)
    (hlt : size + metadataSize < wordLimit) (hsize : 1 ≤ size)
    (hgrow : b.size < size + metadataSize)
    (hfree : MD.isFree s.mem (b.addr ^^^ b.size) = true) (os : Answers) :
    GrowsInPlace r s P os b k size := by
  have heq : ∀ junk, s.sreallocTraced os junk b.payload size
      = (Heap.growLoop b.addr (size + metadataSize) wordLimit (b.addr ^^^ b.size) s).bind
          fun x => x.2.finishCopy (x.1.getD junk) b := by
    intro junk
    rw [h.sreallocTraced_eq hb hsize, Nat.mod_eq_of_lt hlt, if_neg (not_le.mpr hgrow),
      if_pos hfree]
  -- the loop ends in one of three ways; after each of them the copy is one onto itself
  have hends := h.growLoop hb hbf hgrow
  generalize Heap.growLoop b.addr (size + metadataSize) wordLimit
    (b.addr ^^^ b.size) s = R at heq hends
  cases hends with
  | outOfBounds hbig => exact .outOfBounds hbig heq
  | unassigned hgrown hkn hn hsmall hstop =>
    refine .unassigned hgrown hkn hn hsmall hstop ((heq _).trans ?_)
    exact Heap.finishCopy_self (b := b) hgrown.repr hgrown.cur_mem rfl
  | assigned hgrown hkn hn hfits hsmall =>
    refine .assigned hgrown hkn hn hfits hsmall fun junk => (heq junk).trans ?_
    exact Heap.finishCopy_self (b := b) hgrown.repr hgrown.cur_mem rfl

/-! ### Moving -/

/-- `mmap` maps whole pages. -/
def pageCeil (n : ℕ) : ℕ := (n + 4095) / 4096 * 4096

/-- The mapping that `smalloc(size)` may ask for is granted, in whole pages. -/
def Heap.Mapped (s : Heap) (os : Answers) (size : ℕ) : Prop :=
  invalidSize size = false → size128K < metadataSize + size →
    os.MmapOk (pageCeil (metadataSize + size)) s.regions

theorem le_pageCeil (n : ℕ) : n ≤ pageCeil n := by
  rw [pageCeil]
  omega

theorem Answers.MmapOk.mono {len len' : ℕ} {regions : List (ℕ × ℕ)} (h : os.MmapOk len' regions)
    (hle : len ≤ len') : os.MmapOk len regions where
  ne_zero := h.ne_zero
  lt := by
    have := h.lt
    omega
  beside x hx := by
    have hbeside := h.beside x hx
    rw [Beside] at hbeside ⊢
    simp only at hbeside ⊢
    omega

theorem Ready.served_of_mapped (h : Ready r s P) (hmapped : s.Mapped os size) :
    s.Served os size where
  sbrk hfirst := absurd (h.firstMalloc.symm.trans hfirst) Bool.noConfusion
  mmap hvalid hlarge := by
    rw [h.firstMalloc, if_neg Bool.noConfusion]
    exact (hmapped hvalid hlarge).mono (le_pageCeil _)

/-- The block that `smalloc` takes is free and large enough. -/
theorem Lists.Tiling.fitsRequest_taken {base index m : ℕ} (ht : P.Tiling base)
    (hb : b ∈ P (.order index)) (hfree : b.isFree = true) (hfits : m ≤ sizeAt (index - n)) :
    b.fitsRequest m = true := by
  obtain ⟨hindex, hsize⟩ := ht.sized _ _ hb
  have hle : sizeAt (index - n) ≤ sizeAt index := sizeAt_mono (Nat.sub_le index n) hindex
  rw [Blk.fitsRequest, hfree, hsize, decide_eq_true (hfits.trans hle)]
  rfl

/-- A block that is in use, or too small, stays. -/
theorem Allocates.mem_of_not_fits {base : ℕ} (h : Allocates P os size q P') (ht : P.Tiling base)
    (hc : c ∈ P i) (hcf : c.fitsRequest (metadataSize + size) = false) : c ∈ P' i := by
  cases h with
  | refused => exact hc
  | pool hn hd hfree hfits =>
    refine (ht.mem_take hd hn).mpr (Or.inl ⟨hc, ?_⟩)
    rintro rfl haddr
    obtain ⟨-, rfl⟩ := ht.eq_of_addr hc hd haddr
    exact Bool.noConfusion (hcf.symm.trans (ht.fitsRequest_taken hd hfree hfits))
  | mapped => exact Lists.mem_insert.mpr (Or.inr hc)

/-- The block `d` that was allocated is none of the old ones, and has room behind its header for the
bytes of a whole block that is smaller than the request; in a mapping they may go up to the end of
its last page. -/
theorem Ready.exists_room (h : Ready r s P) (h' : Ready r t P') (halloc : Allocates P os size q P')
    (hmapped : s.Mapped os size) (hq : q ≠ 0) (hk : k ≤ maxOrder)
    (hgrow : sizeAt k < metadataSize + size) :
    ∃ i, ∃ d ∈ P' i, d.isFree = false ∧ d.payload = q ∧ metadataSize + size ≤ d.size ∧
      (∀ j, ∀ c ∈ P j, c.fitsRequest (metadataSize + size) = false → c.addr ≠ d.addr) ∧
      ∀ j, ∀ c ∈ P' j, c.addr ≠ d.addr → c.addr + c.size ≤ d.addr ∨ q + sizeAt k ≤ c.addr := by
  cases halloc with
  | refused => exact absurd rfl hq
  | @pool index n b hn hb hfree hfits =>
    have hmem : (⟨b.addr, sizeAt (index - n), false⟩ : Blk) ∈
        P.take index n b (.order (index - n)) :=
      (h.tiling.mem_take hb hn).mpr (Or.inr (Or.inl ⟨rfl, rfl⟩))
    refine ⟨_, _, hmem, rfl, rfl, hfits, fun j c hc hcf haddr => ?_, fun j c hc hne => ?_⟩
    · obtain ⟨-, rfl⟩ := h.repr.eq_of_addr hc hb haddr
      exact Bool.noConfusion (hcf.symm.trans (h.tiling.fitsRequest_taken hb hfree hfits))
    · -- the next order has twice the bytes
      have hindex := (h.tiling.sized _ _ hb).1
      have hlt : k < index - n := lt_of_sizeAt_lt hk (hgrow.trans_le hfits)
      have hdouble := sizeAt_mul_two_le hlt (by omega)
      have hhdr := metadataSize_le_sizeAt hk
      have hsep := h'.separate hmem hc hne.symm
      simp only [Blk.payload] at hsep ⊢
      omega
  | mapped hvalid hbig =>
    have hok := hmapped hvalid hbig
    have hpage := le_pageCeil (metadataSize + size)
    refine ⟨.mapped, _, Lists.self_mem_insert _ _ _, rfl, rfl, le_rfl, fun j c hc _ haddr => ?_,
      fun j c hc hne => ?_⟩
    · have h1 := h.separate_mmapped hok hc
      have h2 := h.metadataSize_lt hc
      simp only at haddr
      omega
    · obtain ⟨-, rfl⟩ | hc := Lists.mem_insert.mp hc
      · exact absurd rfl hne
      · have h1 := h.separate_mmapped hok hc
        have h2 := sizeAt_le hk
        simp only [pageCeil, metadataSize, size128K] at h1 h2 hbig ⊢
        omega

/-- **A request that returns `NULL`** leaves the heap as it is. -/
theorem Ready.smalloc_eq_self (h : Ready r s P) (hnull : (P.smalloc os size).1 = 0) :
    s.smalloc os size = some (0, s) := by
  by_cases hvalid : invalidSize size = true
  · simp only [Heap.smalloc, h.firstMalloc, hvalid, Bool.false_eq_true, if_false, if_true,
      Option.bind_eq_bind, Option.bind_some, Option.pure_def]
  have hsize : 1 ≤ size := by
    simp only [invalidSize, Bool.or_eq_true, beq_iff_eq, decide_eq_true_iff] at hvalid
    omega
  by_cases hsmall : metadataSize + size ≤ size128K
  · -- no free block is large enough, so no list is touched
    obtain ⟨j, hj⟩ := Lists.exists_leastOrder hsmall
    have hserved : s.Served os size := h.served_small hsmall
    obtain ⟨t, heq, -⟩ := h.smalloc hserved
    rw [hnull] at heq
    exact h.smalloc_null hsize hsmall hj (h.no_free_of_null hsize hsmall hj heq)
  · rw [Lists.smalloc, if_neg hvalid, if_neg hsmall] at hnull
    exact absurd hnull (Nat.succ_ne_zero _)

/-- Writing where no header is. -/
theorem Ready.of_write {lo hi : ℕ} {m : Mem} (h : Ready r s P)
    (hm : ∀ x, x < lo ∨ hi ≤ x → m x = s.mem x)
    (hsep : ∀ i, ∀ c ∈ P i, c.payload ≤ lo ∨ hi ≤ c.addr) : Ready r (s.setMem m) P := by
  refine { h with repr := h.repr.congr (fun _ => rfl) fun a ha f => ?_ }
  obtain ⟨i, c, hc, rfl⟩ := ha
  refine Layout.get_congr fun x hx => hm x ?_
  have h1 := hx.1
  have h2 : x < c.payload := hx.2
  have h3 := hsep i c hc
  omega

/-- The old block, marked free. -/
theorem Ready.mark_free (h : Ready r s P) (hb : b ∈ P (.order k)) :
    Ready r (s.setMem (metadata.set .is_free s.mem b.addr 1)) (P.mark (.order k) b.addr true) := by
  have hmapped : P.mark (.order k) b.addr true .mapped = P .mapped :=
    Function.update_of_ne Slot.noConfusion _ _
  exact h.of_frame (.set_field (Lists.addr_mem hb)) (h.repr.mark hb true)
    (h.tiling.mark hb true) hmapped

/-- A flag that was not set, after it is set and cleared. -/
theorem set_isFree_zero {m : Mem} {a : ℕ} (h : MD.isFree m a = false) :
    metadata.set .is_free (metadata.set .is_free m a 1) a 0 = m := by
  have hget : metadata.get .is_free m a = 0 := by
    rw [MD.isFree, decide_eq_false_iff_not, not_not] at h
    exact h
  rw [← hget]
  exact Layout.set_set_get 1

/-- What `srealloc` of the block `b` should do when it returns `q`: the pool is tiled as before, `q`
is the payload of a block in use with room for `size` bytes that starts with the old bytes, every
other block in use is where and what it was, and the old block is free unless it is the one
returned. -/
structure Reallocated (r : ℕ × ℕ) (s : Heap) (P : Lists) (b : Blk) (k size q : ℕ) (t : Heap)
    (P' : Lists) : Prop where
  ready : Ready r t P'
  block : ∃ i, ∃ d ∈ P' i, d.isFree = false ∧ d.payload = q ∧ size + metadataSize ≤ d.size
  contents : ∀ n < b.size - metadataSize, t.mem (q + n) = s.mem (b.payload + n)
  others : ∀ i, ∀ c ∈ P i, c.isFree = false → c ≠ b →
    c ∈ P' i ∧ ∀ n < c.size - metadataSize, t.mem (c.payload + n) = s.mem (c.payload + n)
  freed : q ≠ b.payload → ({ b with isFree := true } : Blk) ∈ P' (.order k)

/-- The flag of the old block is no byte of any payload. -/
theorem Ready.mem_mark_free (h : Ready r s P) (hb : b ∈ P (.order k)) (hc : c ∈ P i) {n : ℕ}
    (hn : n < c.size - metadataSize) :
    metadata.set .is_free s.mem b.addr 1 (c.payload + n) = s.mem (c.payload + n) :=
  Layout.set_apply_out (h.addrs_apart_payload hc hn b.addr (Lists.addr_mem hb))

theorem Heap.mem_memmove_out {copy : Copy} {x : ℕ} (hx : x < copy.dst ∨ copy.dst + copy.len ≤ x) :
    (s.memmove copy).mem x = s.mem x := by
  show s.mem.blit copy.dst copy.len (fun i => s.mem (copy.src + i)) x = s.mem x
  exact Mem.blit_apply_out hx

theorem Heap.mem_memmove {copy : Copy} (hn : n < copy.len) :
    (s.memmove copy).mem (copy.dst + n) = s.mem (copy.src + n) := by
  show s.mem.blit copy.dst copy.len (fun i => s.mem (copy.src + i)) (copy.dst + n) = _
  exact Mem.blit_apply hn

/-- A copy to the payload of `d` that stays clear of every other block. -/
theorem Ready.memmove {copy : Copy} {d : Blk} (h : Ready r s P) (hdst : d.payload = copy.dst)
    (hclear : ∀ j, ∀ c ∈ P j, c.addr ≠ d.addr →
      c.addr + c.size ≤ d.addr ∨ copy.dst + copy.len ≤ c.addr) :
    Ready r (s.memmove copy) P := by
  apply h.of_write (fun x => Mem.blit_apply_out)
  intro j c hc
  rw [Blk.payload] at hdst ⊢
  by_cases hcd : c.addr = d.addr
  · left
    rw [hcd, hdst]
  · have h1 := hclear j c hc hcd
    have h2 := h.metadataSize_lt hc
    omega

/-- **What a move leaves behind**: the heap after `smalloc` has returned `q` and the old block,
whose flag was set before the call, is copied there with its header size as the length. -/
theorem Ready.reallocated_move {t₀ : Heap} (h : Ready r s P) (hb : b ∈ P (.order k))
    (hgrow : b.size < metadataSize + size) (hready : Ready r t₀ P')
    (halloc : Allocates (P.mark (.order k) b.addr true) os size q P') (hq : q ≠ 0)
    (hbytes : ∀ i, ∀ c ∈ P.mark (.order k) b.addr true i,
      c.fitsRequest (metadataSize + size) = false → ∀ n < c.size - metadataSize,
        t₀.mem (c.payload + n) = metadata.set .is_free s.mem b.addr 1 (c.payload + n))
    (hmapped : s.Mapped os size) :
    q ≠ b.payload ∧ ({ b with isFree := true } : Blk) ∈ P' (.order k) ∧
      Reallocated r s P b k size q (t₀.memmove ⟨q, b.payload, b.size⟩) P' := by
  obtain ⟨hk, hbsize⟩ := h.tiling.sized k b hb
  have hready₁ := h.mark_free hb
  obtain ⟨i, d, hd, hdf, hdq, hdsize, hnew, hroom⟩ :=
    hready₁.exists_room hready halloc hmapped hq hk (hbsize ▸ hgrow)
  rw [← hbsize] at hroom
  -- the old block, free, is too small to be taken
  have hold : ({ b with isFree := true } : Blk) ∈ P.mark (.order k) b.addr true (.order k) :=
    Lists.mem_mark.mpr ⟨b, hb, (if_pos ⟨rfl, rfl⟩).symm⟩
  have holdfit : ({ b with isFree := true } : Blk).fitsRequest (metadataSize + size) = false := by
    rw [Blk.fitsRequest, decide_eq_false (not_le.mpr hgrow)]
    rfl
  have hold' := halloc.mem_of_not_fits hready₁.tiling hold holdfit
  have hne : b.addr ≠ d.addr := hnew _ { b with isFree := true } hold holdfit
  refine ⟨?_, hold', ⟨hready.memmove hdq hroom, ⟨i, d, hd, hdf, hdq, by omega⟩, ?_, ?_,
    fun _ => hold'⟩⟩
  · rw [← hdq, Blk.payload, Blk.payload]
    omega
  · intro n hn
    calc (t₀.memmove ⟨q, b.payload, b.size⟩).mem (q + n)
        = t₀.mem (b.payload + n) :=
          Heap.mem_memmove (show n < b.size by omega)
      _ = metadata.set .is_free s.mem b.addr 1 (b.payload + n) := hbytes _ _ hold holdfit n hn
      _ = s.mem (b.payload + n) := h.mem_mark_free hb hb hn
  · intro j c hc hcf hcb
    have hc₁ : c ∈ P.mark (.order k) b.addr true j := by
      refine Lists.mem_mark.mpr ⟨c, hc, (if_neg ?_).symm⟩
      rintro ⟨-, haddr⟩
      exact hcb (h.repr.eq_of_addr hc hb haddr).2
    have hfit : c.fitsRequest (metadataSize + size) = false := by
      rw [Blk.fitsRequest, hcf, Bool.false_and]
    have hc' := halloc.mem_of_not_fits hready₁.tiling hc₁ hfit
    refine ⟨hc', fun n hn => ?_⟩
    -- the payload lies before the new block or behind the copy
    have hout : c.payload + n < q ∨ q + b.size ≤ c.payload + n := by
      have h1 := hroom j c hc' (hnew j c hc₁ hfit)
      have hpay : d.addr + metadataSize = q := hdq
      rw [Blk.payload]
      omega
    calc (t₀.memmove ⟨q, b.payload, b.size⟩).mem (c.payload + n)
        = t₀.mem (c.payload + n) := Heap.mem_memmove_out hout
      _ = metadata.set .is_free s.mem b.addr 1 (c.payload + n) := hbytes _ _ hc₁ hfit n hn
      _ = s.mem (c.payload + n) := h.mem_mark_free hb hc hn

/-- `smalloc(size)` has something to return: a mapping, or a free block that is large enough. -/
def Lists.Serves (P : Lists) (size : ℕ) : Prop :=
  invalidSize size = false ∧ (size128K < metadataSize + size ∨
    ∃ l, ∃ c ∈ P (.order l), c.fitsRequest (metadataSize + size) = true)

/-- Marking a block free that is too small does not serve a request. -/
theorem Ready.smalloc_mark_eq_zero_iff (h : Ready r s P) (hb : b ∈ P (.order k)) (hsize : 1 ≤ size)
    (hgrow : b.size < metadataSize + size) :
    ((P.mark (.order k) b.addr true).smalloc os size).1 = 0 ↔ ¬ P.Serves size := by
  have hready := h.mark_free hb
  constructor
  · rintro hnull ⟨hvalid, hserves⟩
    by_cases hsmall : metadataSize + size ≤ size128K
    · obtain ⟨l, c, hc, hfit⟩ := hserves.resolve_left (not_lt.mpr hsmall)
      rw [Blk.fitsRequest, Bool.and_eq_true, decide_eq_true_iff] at hfit
      obtain ⟨j, hj⟩ := Lists.exists_leastOrder hsmall
      have hjl : j ≤ l := by
        by_contra hlj
        exact absurd (hj.2.2 l (not_le.mp hlj))
          (not_lt.mpr ((h.tiling.sized l c hc).2 ▸ hfit.2))
      -- a block that is free stays what it is
      have hc' : c ∈ P.mark (.order k) b.addr true (.order l) := by
        refine Lists.mem_mark.mpr ⟨c, hc, ?_⟩
        split
        · rw [← hfit.1]
        · rfl
      have hused :=
        hready.no_free_of_null hsize hsmall hj (hready.smalloc_eq_self hnull) l hjl c hc'
      exact Bool.noConfusion (hused.symm.trans hfit.1)
    · rw [Lists.smalloc, hvalid, if_neg Bool.false_ne_true, if_neg hsmall] at hnull
      exact absurd hnull (Nat.succ_ne_zero _)
  · intro hnot
    by_contra hq
    have hvalid : invalidSize size = false := by
      by_contra hinvalid
      rw [Lists.smalloc, if_pos (by simpa using hinvalid)] at hq
      exact hq rfl
    have halloc := smalloc_allocates (P.mark (.order k) b.addr true) os size
    generalize (P.mark (.order k) b.addr true).smalloc os size = R at halloc hq
    obtain ⟨q, P'⟩ := R
    cases halloc with
    | refused => exact hq rfl
    | @pool index n d hn hd hfree hfits =>
      have hfit := hready.tiling.fitsRequest_taken hd hfree hfits
      obtain ⟨c, hc, heq⟩ := Lists.mem_mark.mp hd
      refine hnot ⟨hvalid, Or.inr ⟨index, c, hc, ?_⟩⟩
      split at heq
      · next hbc =>
        -- the block that was marked is too small
        obtain ⟨-, rfl⟩ := h.repr.eq_of_addr hc hb hbc.2
        rw [heq, Blk.fitsRequest, Bool.and_eq_true, decide_eq_true_iff] at hfit
        exact absurd hfit.2 (not_le.mpr hgrow)
      · rwa [← heq]
    | mapped _ hlarge => exact hnot ⟨hvalid, Or.inl hlarge⟩

/-- **Moving** a block whose buddy address holds no header marked free: without memory the heap
stays as it is, and otherwise all is as it should be. -/
theorem Ready.sreallocTraced_move (h : Ready r s P) (hb : b ∈ P (.order k)) (hbf : b.isFree = false)
    (hsize : 1 ≤ size) (hlt : size + metadataSize < wordLimit)
    (hgrow : b.size < size + metadataSize)
    (hbuddy : MD.isFree s.mem (b.addr ^^^ b.size) = false) (hmapped : s.Mapped os size) :
    (((P.mark (.order k) b.addr true).smalloc os size).1 = 0 ∧
      ∀ junk, s.sreallocTraced os junk b.payload size = some (none, 0, s)) ∨
    ∃ q t P', q ≠ 0 ∧ q ≠ b.payload ∧ Reallocated r s P b k size q t P' ∧
      (P.mark (.order k) b.addr true).smalloc os size = (q, P') ∧
      ∀ junk, s.sreallocTraced os junk b.payload size
        = some (some ⟨q, b.payload, b.size⟩, q, t) := by
  have heq : ∀ junk, s.sreallocTraced os junk b.payload size
      = ((s.setMem (metadata.set .is_free s.mem b.addr 1)).smalloc os size).bind fun x =>
          if x.1 = 0 then some (none, 0, x.2.setMem (metadata.set .is_free x.2.mem b.addr 0))
          else x.2.finishCopy x.1 b := by
    intro junk
    rw [h.sreallocTraced_eq hb hsize, Nat.mod_eq_of_lt hlt, if_neg (not_le.mpr hgrow), hbuddy,
      if_neg Bool.false_ne_true]
  -- the heap in which `smalloc` runs
  have hready₁ := h.mark_free hb
  have hserved := hready₁.served_of_mapped (show Heap.Mapped _ os size from hmapped)
  obtain ⟨t₀, heq₀, hready₀, hbytes⟩ := hready₁.smalloc_bytes hserved
  by_cases hq : ((P.mark (.order k) b.addr true).smalloc os size).1 = 0
  · refine Or.inl ⟨hq, fun junk => ?_⟩
    rw [heq junk, hready₁.smalloc_eq_self hq, Option.bind_some, if_pos rfl]
    have hback :
        s.setMem (metadata.set .is_free (metadata.set .is_free s.mem b.addr 1) b.addr 0) = s := by
      rw [set_isFree_zero ((h.repr.node _ _ hb).isFree.trans hbf)]
      rfl
    exact congrArg (fun t => some (none, 0, t)) hback
  · obtain ⟨hne, hold, hre⟩ := h.reallocated_move hb (by omega) hready₀
      (smalloc_allocates _ os size) hq hbytes hmapped
    refine Or.inr ⟨_, _, _, hq, hne, hre, rfl, fun junk => ?_⟩
    -- the length of the copy is read from the old header, which is still there
    have hlen : MD.size t₀.mem b.addr = b.size := (hready₀.repr.node _ _ hold).size
    have hmmap := Ready.isMmap_eq hre.ready.repr hold
    rw [heq junk, heq₀, Option.bind_some, if_neg hq, Heap.finishCopy, hlen, Heap.releaseMapped,
      hmmap, if_neg Bool.false_ne_true]
    rfl

end OsHomework.Malloc3
