import OsHomework.Malloc3.Arena
import OsHomework.Malloc3.BestFit
import OsHomework.Malloc3.Integrity

/-!
# How far free memory is joined

Without two free buddies the free memory of the pool cannot be joined any further: whenever all
bytes of an aligned range of some order are free, they lie in one free block
(`Lists.Tiling.exists_free_superset`). So in every run in which no `sfree` meets a free header of a
smaller block where it looks for a buddy, the order in which blocks are freed leaves no trace: once
nothing is live the pool is what the first call has set up (`pool_coalesced`), and a request is
refused only if no aligned range that could hold it is free (`smalloc_refuses_iff`).
-/

namespace OsHomework.Malloc3

/-- The free blocks of the pool. -/
def Heap.FreeBlock (s : Heap) (b : Blk) : Prop :=
  b.isFree = true ∧ ∃ k ≤ maxOrder, ∃ L, s.blocks (.order k) = some L ∧ b ∈ L

/-- The bytes of the free blocks, their headers included. -/
def Heap.freeBytes (s : Heap) : Set ℕ := {x | ∃ b, s.FreeBlock b ∧ x ∈ b.range}

namespace Lists

variable {P : Lists} {base a k : ℕ} {b : Blk}

/-- **Free memory is in blocks as large as alignment allows.** -/
theorem Tiling.exists_free_superset (h : P.Tiling base) (hno : P.NoFreeBuddies) (hk : k ≤ maxOrder)
    (ha : 128 * 2 ^ k ∣ a)
    (hfree : ∀ x ∈ orderRange k a, ∃ b ∈ P.pool, b.isFree = true ∧ x ∈ b.range) :
    ∃ b ∈ P.pool, b.isFree = true ∧ orderRange k a ⊆ b.range := by
  have hD := dyadic_order ha
  -- the range lies in the arena, since the free blocks do
  have hsub : orderRange k a ⊆ arena base := by
    intro x hx
    obtain ⟨b, hb, -, hxb⟩ := hfree x hx
    exact h.tiles.subset hb hxb
  -- a block that starts in the range is the free one that its first byte lies in
  have hstart : ∀ b ∈ P.pool, b.addr ∈ orderRange k a → b.isFree = true := by
    intro b hb hba
    obtain ⟨c, hc, hcf, hbc⟩ := hfree b.addr hba
    rwa [h.tiles.eq_of_mem hb hc (h.addr_mem_range hb) hbc]
  have hle : 128 * 2 ^ k ≤ size128K := sizeAt_eq hk ▸ sizeAt_le hk
  obtain ⟨b, hb, hsup⟩ := h.tiles.exists_superset h.dyadic hD hsub
    fun b hb c hc hba hca hlt hcs heq => hno b hb c hc
      ⟨hstart b hb hba, hstart c hc hca, hlt.trans_le hle, heq, hcs⟩
  refine ⟨b, hb, ?_, hsup⟩
  have haD : a ∈ orderRange k a := ⟨le_rfl, Nat.lt_add_of_pos_right hD.pos⟩
  obtain ⟨c, hc, hcf, hac⟩ := hfree a haD
  rwa [h.tiles.eq_of_mem hb hc (hsup haD) hac]

/-- If all blocks are free, they have 128 KiB each. -/
theorem Tiling.mem_of_all_free (h : P.Tiling base) (hno : P.NoFreeBuddies)
    (hfree : ∀ b ∈ P.pool, b.isFree = true) (k : ℕ) (b : Blk) :
    b ∈ P (.order k) ↔ b ∈ poolLists base 32 (.order k) := by
  obtain ⟨m, hm⟩ := h.base_dvd
  -- each of the 32 blocks is there
  have hblock : ∀ j < 32, (⟨base + j * size128K, size128K, true⟩ : Blk) ∈ P (.order maxOrder) := by
    intro j hj
    -- the `j`-th block of 128 KiB is an aligned range, and all of it is free
    have hdvd : 128 * 2 ^ maxOrder ∣ base + j * size128K :=
      Nat.dvd_add (Dvd.intro m hm.symm) (Nat.dvd_mul_left size128K j)
    have hrange : ∀ x ∈ orderRange maxOrder (base + j * size128K), x ∈ arena base := by
      rintro x ⟨h1, h2⟩
      have hj' := Nat.mul_le_mul_right size128K (Nat.succ_le_of_lt hj)
      rw [Nat.succ_mul] at hj'
      change x < base + j * size128K + size128K at h2
      exact ⟨(Nat.le_add_right _ _).trans h1, by omega⟩
    obtain ⟨c, ⟨i, hc⟩, hcf, hsup⟩ := h.exists_free_superset hno le_rfl hdvd fun x hx => by
      obtain ⟨c, hc, hxc⟩ := h.tiles.exists_mem (hrange x hx)
      exact ⟨c, hc, hfree c hc, hxc⟩
    obtain ⟨hi, hsize⟩ := h.sized i c hc
    have hpos : base + j * size128K < base + j * size128K + 128 * 2 ^ maxOrder :=
      Nat.lt_add_of_pos_right (by decide)
    obtain ⟨h1, h2⟩ := (Set.Ico_subset_Ico_iff hpos).mp hsup
    change base + j * size128K + size128K ≤ c.addr + c.size at h2
    -- a block that holds 128 KiB has no other size
    have hmax := sizeAt_le hi
    have hceq : c.size = size128K := by omega
    have haddr : c.addr = base + j * size128K := by omega
    obtain rfl : i = maxOrder := sizeAt_injective hi le_rfl (hsize.symm.trans hceq)
    rwa [← haddr, ← hceq, ← hcf]
  constructor
  · intro hb
    obtain ⟨j, hj, hbj⟩ := exists_poolBlock (h.tiles.subset ⟨k, hb⟩ (h.addr_mem_range ⟨k, hb⟩))
    rw [poolBlock, Nat.succ_mul, ← Nat.add_assoc] at hbj
    obtain rfl := h.tiles.eq_of_mem ⟨k, hb⟩ ⟨_, hblock j hj⟩ (h.addr_mem_range ⟨k, hb⟩) hbj
    exact mem_poolLists.mpr ⟨congrArg Slot.order (h.eq_of_addr hb (hblock j hj) rfl).1, j, hj, rfl⟩
  · intro hb
    obtain ⟨hk, j, hj, rfl⟩ := mem_poolLists.mp hb
    rw [hk]
    exact hblock j hj

end Lists

/-! ### Every run -/

section Runs

variable {r : ℕ × ℕ} {s : Heap} {t : Session} {es : List Event} {P : Lists} {b : Blk} {k : ℕ}

/-- The free blocks are those of the lists. -/
theorem Ready.freeBlock_iff (h : Ready r s P) : s.FreeBlock b ↔ b ∈ P.pool ∧ b.isFree = true := by
  constructor
  · rintro ⟨hfree, k, -, L, hL, hb⟩
    rw [h.repr.blocks_eq] at hL
    cases hL
    exact ⟨⟨k, hb⟩, hfree⟩
  · rintro ⟨⟨k, hb⟩, hfree⟩
    exact ⟨hfree, k, (h.tiling.sized k b hb).1, _, h.repr.blocks_eq _, hb⟩

theorem Ready.mem_freeBytes (h : Ready r s P) {x : ℕ} :
    x ∈ s.freeBytes ↔ ∃ b ∈ P.pool, b.isFree = true ∧ x ∈ b.range := by
  constructor
  · rintro ⟨b, hb, hx⟩
    obtain ⟨hb, hfree⟩ := h.freeBlock_iff.mp hb
    exact ⟨b, hb, hfree, hx⟩
  · rintro ⟨b, hb, hfree, hx⟩
    exact ⟨b, h.freeBlock_iff.mpr ⟨hb, hfree⟩, hx⟩

/-- Once nothing is live, the lists are those of the first call. -/
theorem Holds.lists_eq (h : Holds t r P) (hlive : t.live = ∅) : P = poolLists (poolBase r) 32 := by
  have hnone : ∀ i, ∀ b ∈ P i, b.isFree = true := by
    intro i b hb
    by_contra hused
    -- a block in use would have a live pointer
    have : b.payload ∈ t.live := h.live ▸ ⟨i, b, hb, Bool.eq_false_of_not_eq_true hused, rfl⟩
    rwa [hlive] at this
  have hsorted : ∀ i, (P i).Pairwise fun b c => b.addr < c.addr := fun i =>
    List.pairwise_map.mp (h.ready.repr.list i).sorted
  funext i
  cases i with
  | mapped =>
    -- mapped blocks are never free
    rw [poolLists_of_ne _ _ Slot.noConfusion]
    refine List.eq_nil_iff_forall_not_mem.mpr fun b hb => ?_
    exact absurd (hnone _ b hb) (by rw [(h.ready.mapped b hb).1]; exact Bool.noConfusion)
  | order k =>
    have hmem := h.ready.tiling.mem_of_all_free h.noFreeBuddies fun b ⟨k, hb⟩ => hnone _ b hb
    have hsorted' : (poolLists (poolBase r) 32 (.order k)).Pairwise fun b c => b.addr < c.addr := by
      by_cases hk : k = maxOrder
      · rw [hk, poolLists_maxOrder, List.pairwise_map]
        refine List.pairwise_lt_range.imp fun hij => ?_
        exact Nat.add_lt_add_left (Nat.mul_lt_mul_of_pos_right hij (by decide)) _
      · rw [poolLists_of_ne _ _ fun heq => hk (Slot.order.inj heq)]
        exact List.Pairwise.nil
    -- two sorted lists with the same blocks are the same list
    have hperm : (P (.order k)).Perm (poolLists (poolBase r) 32 (.order k)) :=
      (List.perm_ext_iff_of_nodup ((hsorted _).imp fun hlt heq => hlt.ne (congrArg Blk.addr heq))
        (hsorted'.imp fun hlt heq => hlt.ne (congrArg Blk.addr heq))).mpr (hmem k)
    exact hperm.eq_of_pairwise (fun b c _ _ hbc hcb => absurd hbc hcb.asymm) (hsorted _) hsorted'

/-- Free blocks of an order or above, and free ranges of that order. -/
theorem Holds.no_free_iff (h : Holds t r P) {j : ℕ} (hj : j ≤ maxOrder) :
    (∀ l, j ≤ l → ∀ b ∈ P (.order l), b.isFree = false) ↔
      ∀ a, 128 * 2 ^ j ∣ a → ¬ orderRange j a ⊆ t.heap.freeBytes := by
  have hready := h.ready
  constructor
  · intro hnone a ha hfree
    obtain ⟨b, ⟨l, hb⟩, hbf, hsup⟩ := hready.tiling.exists_free_superset h.noFreeBuddies hj ha
      fun x hx => hready.mem_freeBytes.mp (hfree hx)
    -- the block is as long as the range, so that it is of the order `j` or above
    have hpos : a < a + 128 * 2 ^ j := Nat.lt_add_of_pos_right (dyadic_order ha).pos
    obtain ⟨h1, h2⟩ := (Set.Ico_subset_Ico_iff hpos).mp hsup
    have hle : sizeAt j ≤ sizeAt l := by
      rw [sizeAt_eq hj, ← (hready.tiling.sized l b hb).2]
      omega
    have hjl : j ≤ l := not_lt.mp fun hlt => absurd hle (not_le.mpr (sizeAt_strictMono hlt hj))
    exact absurd (hnone l hjl b hb) (by rw [hbf]; exact Bool.noConfusion)
  · intro hnone l hjl b hb
    by_contra hused
    obtain ⟨hl, hbs⟩ := hready.tiling.sized l b hb
    have hdvd : 128 * 2 ^ j ∣ b.addr := by
      rw [← sizeAt_eq hj]
      exact (hbs ▸ Lists.sizeAt_dvd hjl hl).trans (hready.tiling.dvd b ⟨l, hb⟩)
    refine hnone b.addr hdvd fun x hx => hready.mem_freeBytes.mpr
      ⟨b, ⟨l, hb⟩, Bool.eq_true_of_not_eq_false hused, hx.1, hx.2.trans_le ?_⟩
    rw [hbs, ← sizeAt_eq hj]
    exact Nat.add_le_add_left (sizeAt_mono hjl hl) _

/-- A run in which a call has entered `smalloc` has a pool. -/
theorem Inv.holds (h : Inv es t) (hcalled : ∃ e ∈ es, e.entersSmalloc = true) :
    ∃ r P, Holds t r P := by
  obtain ⟨-, -, hnone⟩ | hholds := h
  · obtain ⟨e, he, henters⟩ := hcalled
    exact absurd ((hnone e he).symm.trans henters) Bool.noConfusion
  · exact hholds

end Runs

/-- **Complete coalescing**, in every run from program start in which no `sfree` meets a free header
of a smaller block where it looks for a buddy, once a call has entered `smalloc`: an aligned range
of any order whose bytes are all free lies in one free block; and when no pointer is live, in
whatever order they were freed, the pool holds the 32 free blocks of 128 KiB it started with and
nothing else, and every mapping has been given back. -/
theorem pool_coalesced {s t : Session} {es : List Event} (hs : client.init s)
    (h : (client.restrict Session.Clean).Run s es t) (hcalled : ∃ e ∈ es, e.entersSmalloc = true) :
    (∀ k ≤ maxOrder, ∀ a, 128 * 2 ^ k ∣ a → orderRange k a ⊆ t.heap.freeBytes →
      ∃ b, t.heap.FreeBlock b ∧ orderRange k a ⊆ b.range) ∧
    (t.live = ∅ → ∃ r, t.heap.regions = [r] ∧ PoolPlaced t.heap (poolBase r)) := by
  obtain ⟨r, P, hholds⟩ := (Inv.of_run hs h).holds hcalled
  have hready := hholds.ready
  constructor
  · intro k hk a ha hfree
    obtain ⟨b, hb, hbf, hsup⟩ := hready.tiling.exists_free_superset hholds.noFreeBuddies hk ha
      fun x hx => hready.mem_freeBytes.mp (hfree hx)
    exact ⟨b, hready.freeBlock_iff.mpr ⟨hb, hbf⟩, hsup⟩
  · intro hlive
    obtain rfl := hholds.lists_eq hlive
    refine ⟨r, ?_, hready.repr.poolPlaced⟩
    have hregions := hready.regions
    rw [poolLists_of_ne _ _ Slot.noConfusion] at hregions
    exact List.perm_singleton.mp hregions

/-- The theorem at a run that splits, maps, gives the mapping back and merges. -/
theorem pool_coalesced_sample :
    ∃ s es t, client.init s ∧ (client.restrict Session.Clean).Run s es t ∧
      ∃ r, t.heap.regions = [r] ∧ PoolPlaced t.heap (poolBase r) := by
  obtain ⟨s, es, t, hs, hrun, -, hcalled, hlive⟩ := exists_merged_run
  exact ⟨s, es, t, hs, hrun, (pool_coalesced hs hrun hcalled).2 hlive⟩

/-- **A refusal has a reason**, in the same runs: a small request always returns, and it is refused,
with the heap as it was, exactly when no aligned range of the order it needs is free. Free memory
that is split over several blocks is never the cause. -/
theorem smalloc_refuses_iff {s t : Session} {es : List Event} {os : Answers} {size j : ℕ}
    (hs : client.init s) (h : (client.restrict Session.Clean).Run s es t)
    (hcalled : ∃ e ∈ es, e.entersSmalloc = true) (hsize : 1 ≤ size)
    (hsmall : size + metadataSize ≤ size128K)
    (hj : IsLeast {l | size + metadataSize ≤ 128 * 2 ^ l} j) :
    ∃ ret heap, t.heap.smalloc os size = some (ret, heap) ∧ (ret = 0 → heap = t.heap) ∧
      (ret = 0 ↔ ∀ a, 128 * 2 ^ j ∣ a → ¬ orderRange j a ⊆ t.heap.freeBytes) := by
  rw [Nat.add_comm] at hsmall
  have hleast := Lists.LeastOrder.of_isLeast hsmall hj
  obtain ⟨r, P, hholds⟩ := (Inv.of_run hs h).holds hcalled
  have hready := hholds.ready
  -- a small request needs no system call
  have hserved : t.heap.Served os size := hready.served_small hsmall
  obtain ⟨heap, heq, -⟩ := hready.smalloc hserved
  have hroom := hholds.no_free_iff hleast.1
  have hnull : (P.smalloc os size).1 = 0 ↔
      ∀ l, j ≤ l → ∀ b ∈ P (.order l), b.isFree = false := by
    constructor
    · intro h0
      exact hready.no_free_of_null hsize hsmall hleast (h0 ▸ heq)
    · intro hnone
      have := heq.symm.trans (hready.smalloc_null hsize hsmall hleast hnone)
      exact congrArg Prod.fst (Option.some.inj this)
  refine ⟨_, heap, heq, fun h0 => ?_, hnull.trans hroom⟩
  have hsame : t.heap.smalloc os size = some (0, t.heap) :=
    hready.smalloc_null hsize hsmall hleast (hnull.mp h0)
  exact congrArg Prod.snd (Option.some.inj (heq.symm.trans hsame))

/-- The theorem for `smalloc(1)` at a run that has given back everything. -/
theorem smalloc_refuses_iff_sample :
    ∃ s es t, client.init s ∧ (client.restrict Session.Clean).Run s es t ∧
      ∃ ret heap, t.heap.smalloc sampleAnswers 1 = some (ret, heap) ∧
        (ret = 0 ↔ ∀ a, 128 ∣ a → ¬ orderRange 0 a ⊆ t.heap.freeBytes) := by
  obtain ⟨s, es, t, hs, hrun, -, hcalled, -⟩ := exists_merged_run
  have hj : IsLeast {l | 1 + metadataSize ≤ 128 * 2 ^ l} 0 := ⟨by decide, fun l _ => Nat.zero_le l⟩
  obtain ⟨ret, heap, heq, -, hiff⟩ :=
    @smalloc_refuses_iff s t es sampleAnswers 1 0 hs hrun hcalled le_rfl (by decide) hj
  exact ⟨s, es, t, hs, hrun, ret, heap, heq, hiff⟩

end OsHomework.Malloc3
