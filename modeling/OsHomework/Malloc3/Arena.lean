import OsHomework.Malloc3.Ready

/-!
# The place of the arena

The first `smalloc` asks for 33 blocks of 128 KiB less what the break lies above a multiple of
128 KiB, and starts the pool at the next multiple. So the pool ends where the granted memory does,
whatever the break was (`ArenaPlaced`), and every block of 128 KiB is a dyadic block.

This is what `findNeighboringBlock_ChallengeOne` rests on. It flips one bit of an address, and for
an address that is a multiple of its order's size the result is the other half of the block of the
next order, in the same block of 128 KiB (`SoundBuddy`).
-/

namespace OsHomework.Malloc3

/-- The `j`-th block of 128 KiB of the arena. -/
def poolBlock (base j : ℕ) : Set ℕ := Set.Ico (base + j * size128K) (base + (j + 1) * size128K)

/-- The bytes of a block of the order `k` at the address `a`. -/
def orderRange (k a : ℕ) : Set ℕ := Set.Ico a (a + 128 * 2 ^ k)

/-- The buddy of a block of the order `k` at the address `a`. -/
def buddyAt (k a : ℕ) : ℕ := a ^^^ (128 * 2 ^ k)

/-- The buddy at the order `k` of the address `a` is one. -/
structure SoundBuddy (base k a : ℕ) : Prop where
  sameBlock : ∃ j < 32, a ∈ poolBlock base j ∧ buddyAt k a ∈ poolBlock base j
  involutive : buddyAt k (buddyAt k a) = a
  disjoint : Disjoint (orderRange k a) (orderRange k (buddyAt k a))
  union : orderRange k a ∪ orderRange k (buddyAt k a) = orderRange (k + 1) (min a (buddyAt k a))
  dvd : 128 * 2 ^ (k + 1) ∣ min a (buddyAt k a)

/-- The lists of the new pool: 32 free blocks of 128 KiB, one behind the other. -/
structure PoolPlaced (s : Heap) (base : ℕ) : Prop where
  chain : Chain (MD.next s.mem) (s.mdListArr maxOrder).head
    ((List.range 32).map fun j => base + j * size128K)
  header : ∀ j < 32, MD.size s.mem (base + j * size128K) = size128K ∧
    MD.isFree s.mem (base + j * size128K) = true ∧
    MD.address s.mem (base + j * size128K) = base + j * size128K + metadataSize
  others : ∀ i, i ≠ .order maxOrder → s.list i = MDList.empty

/-- Where the pool lies if the break was at `b`. -/
structure ArenaPlaced (b : ℕ) (s : Heap) (base : ℕ) : Prop where
  pool : PoolPlaced s base
  dvd : size128K ∣ base
  above : b < base
  /-- What was granted starts at the old break and ends with the arena. -/
  granted : ∃ len, s.regions = [(b, len)] ∧ base + 32 * size128K = b + len

/-! ### Buddies in the arena -/

section Buddies

variable {base k a x : ℕ}

theorem exists_poolBlock (hx : x ∈ arena base) : ∃ j < 32, x ∈ poolBlock base j := by
  obtain ⟨hlow, hhigh⟩ := hx
  have hpos : 0 < size128K := by decide
  obtain ⟨y, rfl⟩ := Nat.exists_eq_add_of_le hlow
  refine ⟨y / size128K, ?_, ?_, ?_⟩
  · exact (Nat.div_lt_iff_lt_mul hpos).mpr (Nat.lt_of_add_lt_add_left hhigh)
  · exact Nat.add_le_add_left (Nat.div_mul_le_self y size128K) base
  · rw [Nat.succ_mul]
    exact Nat.add_lt_add_left (Nat.lt_div_mul_add hpos) base

theorem dyadic_order (ha : 128 * 2 ^ k ∣ a) : Dyadic a (128 * 2 ^ k) where
  pow := ⟨7 + k, (pow_add 2 7 k).symm⟩
  dvd := ha

/-- A block of 128 KiB of an aligned arena. -/
theorem dyadic_poolBlock (hbase : size128K ∣ base) (j : ℕ) :
    Dyadic (base + j * size128K) size128K where
  pow := ⟨17, rfl⟩
  dvd := Nat.dvd_add hbase (Nat.dvd_mul_left _ _)

theorem two_mul_order (k : ℕ) : 128 * 2 ^ k * 2 = 128 * 2 ^ (k + 1) := by
  rw [pow_succ, Nat.mul_assoc]

/-- **Buddies are sound** at every order below the largest. -/
theorem soundBuddy (hbase : size128K ∣ base) (hk : k < maxOrder) (ha : a ∈ arena base)
    (hdvd : 128 * 2 ^ k ∣ a) : SoundBuddy base k a := by
  have hdyadic := dyadic_order hdvd
  obtain ⟨j, hj, haj⟩ := exists_poolBlock ha
  have hlt : 128 * 2 ^ k < size128K := by
    rw [← sizeAt_eq hk.le]
    exact sizeAt_strictMono hk le_rfl
  refine ⟨⟨j, hj, haj, ?_⟩, Nat.xor_xor_cancel_right _ _, hdyadic.disjoint_buddy, ?_, ?_⟩
  · rw [poolBlock, Nat.succ_mul, ← Nat.add_assoc] at haj ⊢
    exact hdyadic.buddy_mem (dyadic_poolBlock hbase j) hlt haj
  · have hunion := hdyadic.Ico_union_buddy
    rwa [two_mul_order] at hunion
  · have hmin := hdyadic.min_buddy.dvd
    rwa [two_mul_order] at hmin

/-- The address that `findNeighboringBlock_ChallengeOne` computes for a header of the order `k`. -/
theorem findNeighboringBlock_eq_buddyAt {t : Heap} (hk : k ≤ maxOrder)
    (hsize : MD.size t.mem a = sizeAt k) :
    t.findNeighboringBlock_ChallengeOne a = buddyAt k a := by
  rw [Heap.findNeighboringBlock_ChallengeOne, hsize, sizeAt_eq hk, buddyAt]

end Buddies

/-! ### The first call -/

variable {s : Heap} {b base : ℕ}

/-- The lists of the new pool, with their headers in memory. -/
theorem Heap.Repr.poolPlaced (h : s.Repr (poolLists base 32)) : PoolPlaced s base where
  chain := by
    have hchain := (h.list (.order maxOrder)).chain
    rwa [poolLists_maxOrder, List.map_map] at hchain
  header j hj := by
    have hmem : (⟨base + j * size128K, size128K, true⟩ : Blk) ∈
        poolLists base 32 (.order maxOrder) := mem_poolLists.mpr ⟨rfl, j, hj, rfl⟩
    have hnode := h.node _ _ hmem
    exact ⟨hnode.size, hnode.isFree, (h.list _).address _ (List.mem_map_of_mem hmem)⟩
  others _ hi := h.list_eq_empty (poolLists_of_ne base 32 hi)

/-- A break that leaves room for 33 blocks: `sbrk` answers with it. -/
theorem sbrkOk_of_room {mmapped : ℕ} (hb : b + 33 * size128K < wordLimit) :
    (⟨b, b, mmapped⟩ : Answers).SbrkOk where
  adrs := rfl
  lt := by
    have hlen : 32 * size128K - b % size128K + size128K ≤ 33 * size128K := by
      rw [Nat.succ_mul 32]
      exact Nat.add_le_add_right (Nat.sub_le _ _) _
    exact (Nat.add_le_add_left hlen b).trans_lt hb

/-- **The alignment of the arena makes buddies sound.** From every break that leaves room for 33
blocks, the first `smalloc` places its 32 blocks at multiples of 128 KiB, above the old break and up
to the new one; and in the memory they take up, the buddies of all orders are what the merging loops
take them for. -/
theorem arena_buddies_sound (hs : s.Fresh) (hb : b + 33 * size128K < wordLimit)
    (mmapped size : ℕ) :
    ∃ base s', s.initPool ⟨b, b, mmapped⟩ = some s' ∧
      s.smalloc ⟨b, b, mmapped⟩ size = s'.smalloc ⟨b, b, mmapped⟩ size ∧
      ArenaPlaced b s' base ∧
      ∀ k < maxOrder, ∀ a ∈ arena base, 128 * 2 ^ k ∣ a →
        SoundBuddy base k a ∧
          ∀ t : Heap, MD.size t.mem a = sizeAt k →
            t.findNeighboringBlock_ChallengeOne a = buddyAt k a := by
  have hok : (⟨b, b, mmapped⟩ : Answers).SbrkOk := sbrkOk_of_room hb
  obtain ⟨s', hinit, hready⟩ := Ready.initPool hs hok
  set r := (⟨b, b, mmapped⟩ : Answers).sbrked with hr
  have hdvd : size128K ∣ poolBase r := poolBase_dvd r
  refine ⟨poolBase r, s', hinit, Heap.smalloc_first hs.firstMalloc hinit hready.firstMalloc,
    ⟨hready.repr.poolPlaced, hdvd, ?_, r.2, ?_, hok.sbrked_end⟩, fun k hk a ha hka => ?_⟩
  · have hmod := Nat.mod_lt b (show 0 < size128K by decide)
    have hle := Nat.mod_le b size128K
    show b < b - b % size128K + size128K
    omega
  · exact List.perm_singleton.mp hready.regions
  · exact ⟨soundBuddy hdvd hk ha hka, fun t => findNeighboringBlock_eq_buddyAt hk.le⟩

/-- A break one byte below a multiple of 128 KiB. -/
theorem arena_buddies_sound_unaligned :
    freshHeap.Fresh ∧ 131071 + 33 * size128K < wordLimit ∧
      ∃ base s', freshHeap.initPool ⟨131071, 131071, 0⟩ = some s' ∧
        freshHeap.smalloc ⟨131071, 131071, 0⟩ 100 = s'.smalloc ⟨131071, 131071, 0⟩ 100 ∧
        ArenaPlaced 131071 s' base ∧
        ∀ k < maxOrder, ∀ a ∈ arena base, 128 * 2 ^ k ∣ a →
          SoundBuddy base k a ∧
            ∀ t : Heap, MD.size t.mem a = sizeAt k →
              t.findNeighboringBlock_ChallengeOne a = buddyAt k a := by
  have hroom : 131071 + 33 * size128K < wordLimit := by decide
  exact ⟨freshHeap_fresh, hroom, arena_buddies_sound freshHeap_fresh hroom 0 100⟩

end OsHomework.Malloc3
