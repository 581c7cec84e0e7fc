import OsHomework.Lib.Buddy
import OsHomework.Malloc3.Calls

/-!
# The pool as a tiling of the arena

`Lists.Tiling base P`: the blocks in `mdListArr[0..10]` tile the 32 blocks of 128 KiB from `base`
on, each one a dyadic block in the list of its size. Marking a block, taking one (with all splits
that takes) and joining two buddies of one size are local changes of the tiling. The loop of `sfree`
joins without comparing sizes; as long as every free buddy it meets has the size of the block that
has been reached (`Lists.CleanWalk`), it ends, in a tiling that has no two free buddies if there
were none before.
-/

namespace OsHomework.Malloc3

/-- The pool's memory: 32 blocks of 128 KiB. -/
def arena (base : ℕ) : Set ℕ := Set.Ico base (base + 32 * size128K)

/-- A number below 128 KiB changes only the place inside one of the 32 blocks. -/
theorem xor_mem_arena {base x n : ℕ} (hbase : size128K ∣ base) (hx : x ∈ arena base)
    (hn : n < size128K) : x ^^^ n ∈ arena base := by
  obtain ⟨m, rfl⟩ := hbase
  have hpos : 0 < size128K := by decide
  have hblock : (x ^^^ n) / size128K = x / size128K := by
    rw [show size128K = 2 ^ 17 from rfl] at hn ⊢
    rw [Nat.xor_div_two_pow, Nat.div_eq_of_lt hn, Nat.xor_zero]
  -- being in the arena depends on the number of the block alone
  have hiff : ∀ y, y ∈ arena (size128K * m) ↔ m ≤ y / size128K ∧ y / size128K < m + 32 := by
    intro y
    rw [arena, Set.mem_Ico, Nat.le_div_iff_mul_le hpos, Nat.div_lt_iff_lt_mul hpos, Nat.add_mul,
      Nat.mul_comm size128K m]
  rw [hiff, hblock, ← hiff]
  exact hx

/-- The bytes of a block, its header included. -/
abbrev Blk.range : Blk → Set ℕ := blockRange Blk.addr Blk.size

/-- Two free blocks of one size below 128 KiB, each at the buddy address of the other. -/
def FreeBuddies (b c : Blk) : Prop :=
  b.isFree = true ∧ c.isFree = true ∧ b.size < size128K ∧ c.size = b.size ∧
    c.addr = b.addr ^^^ b.size

theorem FreeBuddies.symm {b c : Blk} (h : FreeBuddies b c) : FreeBuddies c b := by
  obtain ⟨h1, h2, h3, h4, h5⟩ := h
  refine ⟨h2, h1, h4 ▸ h3, h4.symm, ?_⟩
  rw [h4, h5, Nat.xor_xor_cancel_right]

namespace Lists

/-- The blocks in `mdListArr`. -/
def pool (P : Lists) : Set Blk := {b | ∃ k, b ∈ P (.order k)}

theorem pool_congr {P P' : Lists} (heq : ∀ k, P' (.order k) = P (.order k)) : P'.pool = P.pool :=
  Set.ext fun b => exists_congr fun k => by rw [heq k]

/-- The pool blocks tile the arena, as dyadic blocks in the lists of their sizes. -/
structure Tiling (base : ℕ) (P : Lists) : Prop where
  base_dvd : size128K ∣ base
  sized : P.Sized
  dvd : ∀ b ∈ P.pool, b.size ∣ b.addr
  tiles : Tiles Blk.range P.pool (arena base)

/-- No block could be merged with its buddy. -/
def NoFreeBuddies (P : Lists) : Prop := ∀ b ∈ P.pool, ∀ c ∈ P.pool, ¬ FreeBuddies b c

variable {P : Lists} {base index i j k n a : ℕ} {b c res neigh : Blk}

theorem sizeAt_isPowerOfTwo (hk : k ≤ maxOrder) : (sizeAt k).isPowerOfTwo :=
  ⟨k + 7, by simp [sizeAt_eq hk, pow_add, Nat.mul_comm]⟩

theorem sizeAt_injective (hj : j ≤ maxOrder) (hk : k ≤ maxOrder) (heq : sizeAt j = sizeAt k) :
    j = k := by
  obtain hlt | rfl | hlt := lt_trichotomy j k
  · exact absurd heq (sizeAt_strictMono hlt hk).ne
  · rfl
  · exact absurd heq.symm (sizeAt_strictMono hlt hj).ne

theorem sizeAt_dvd (hjk : j ≤ k) (hk : k ≤ maxOrder) : sizeAt j ∣ sizeAt k := by
  rw [sizeAt_eq hk, sizeAt_eq (hjk.trans hk)]
  exact Nat.mul_dvd_mul_left _ (pow_dvd_pow 2 hjk)

namespace Tiling

theorem dyadic (h : P.Tiling base) : ∀ b ∈ P.pool, Dyadic b.addr b.size := by
  rintro b ⟨k, hb⟩
  obtain ⟨hk, hsize⟩ := h.sized k b hb
  exact ⟨hsize ▸ sizeAt_isPowerOfTwo hk, h.dvd b ⟨k, hb⟩⟩

theorem addr_mem_range (h : P.Tiling base) (hb : b ∈ P.pool) : b.addr ∈ b.range :=
  ⟨le_rfl, Nat.lt_add_of_pos_right (h.dyadic b hb).pos⟩

/-- There is one pool block at an address, in one list. -/
theorem eq_of_addr (h : P.Tiling base) (hb : b ∈ P (.order j)) (hc : c ∈ P (.order k))
    (heq : b.addr = c.addr) : j = k ∧ b = c := by
  have hbc : b = c := h.tiles.eq_of_mem ⟨j, hb⟩ ⟨k, hc⟩ (h.addr_mem_range ⟨j, hb⟩)
    (heq ▸ h.addr_mem_range ⟨k, hc⟩)
  obtain ⟨hj, hsj⟩ := h.sized j b hb
  obtain ⟨hk, hsk⟩ := h.sized k c hc
  exact ⟨sizeAt_injective hj hk (by rw [← hsj, ← hsk, hbc]), hbc⟩

theorem lookup_eq (h : P.Tiling base) (hb : b ∈ P.pool) : P.lookup b.addr = some b := by
  obtain ⟨k, hb⟩ := hb
  cases hc : P.lookup b.addr with
  | none =>
    have hnone := List.findSome?_eq_none_iff.mp hc k
      (List.mem_range.mpr (Nat.lt_succ_iff.mpr (h.sized k b hb).1))
    exact absurd (List.find?_eq_none.mp hnone b hb) (by simp)
  | some c =>
    obtain ⟨j, -, hcj, hca⟩ := mem_of_lookup hc
    rw [(h.eq_of_addr hcj hb hca).2]

/-- The buddy of a block lies in the arena, like the block. -/
theorem buddy_mem_arena (h : P.Tiling base) (hb : b ∈ P.pool) (hlt : b.size < size128K) :
    b.addr ^^^ b.size ∈ arena base :=
  xor_mem_arena h.base_dvd (h.tiles.subset hb (h.addr_mem_range hb)) hlt

/-- There is always a header where `findNeighboringBlock_ChallengeOne` looks. -/
theorem exists_neighbor (h : P.Tiling base) (hb : b ∈ P.pool) (hlt : b.size < size128K) :
    ∃ c ∈ P.pool, c.addr = b.addr ^^^ b.size ∧ c.size ≤ b.size :=
  h.tiles.exists_at_buddy h.dyadic hb (h.buddy_mem_arena hb hlt)

/-- A tiling changed locally. -/
theorem replace {P' : Lists} {T T' : Set Blk} (h : P.Tiling base)
    (hpool : P'.pool = P.pool \ T ∪ T')
    (hT : T ⊆ P.pool) (htiles : Tiles Blk.range T' (⋃ b ∈ T, b.range)) (hsized : P'.Sized)
    (hdvd : ∀ b ∈ T', b.size ∣ b.addr) : P'.Tiling base where
  base_dvd := h.base_dvd
  sized := hsized
  dvd b hb := by
    rw [hpool] at hb
    obtain hb | hb := hb
    · exact h.dvd b hb.1
    · exact hdvd b hb
  tiles := by
    rw [hpool]
    exact h.tiles.replace hT htiles

/-- Only the lists of the pool matter. -/
theorem congr {P' : Lists} (h : P.Tiling base) (heq : ∀ k, P' (.order k) = P (.order k)) :
    P'.Tiling base := by
  have hpool : P'.pool = P.pool := pool_congr heq
  refine ⟨h.base_dvd, fun k b hb => h.sized k b (heq k ▸ hb), ?_, ?_⟩
  · rw [hpool]
    exact h.dvd
  · rw [hpool]
    exact h.tiles

end Tiling

/-! ### Marking -/

theorem Tiling.pool_mark (h : P.Tiling base) (hb : b ∈ P (.order k)) (v : Bool) :
    (P.mark (.order k) b.addr v).pool = P.pool \ {b} ∪ {{ b with isFree := v }} := by
  ext c
  constructor
  · rintro ⟨j, hc⟩
    obtain ⟨d, hd, rfl⟩ := mem_mark.mp hc
    split_ifs with hdb
    · rw [(h.eq_of_addr hd hb hdb.2).2]
      exact Or.inr rfl
    · refine Or.inl ⟨⟨j, hd⟩, ?_⟩
      rintro rfl
      exact hdb ⟨congrArg Slot.order (h.eq_of_addr hd hb rfl).1, rfl⟩
  · rintro (⟨⟨j, hc⟩, hcb⟩ | rfl)
    · refine ⟨j, mem_mark.mpr ⟨c, hc, (if_neg fun hcond => hcb ?_).symm⟩⟩
      exact (h.eq_of_addr hc hb hcond.2).2
    · exact ⟨k, mem_mark.mpr ⟨b, hb, (if_pos ⟨rfl, rfl⟩).symm⟩⟩

theorem Tiling.mark (h : P.Tiling base) (hb : b ∈ P (.order k)) (v : Bool) :
    (P.mark (.order k) b.addr v).Tiling base := by
  refine h.replace (h.pool_mark hb v) (Set.singleton_subset_iff.mpr ⟨k, hb⟩) ?_
    (h.sized.mark _ _ _) ?_
  · rw [Set.biUnion_singleton]
    exact Tiles.singleton Blk.range { b with isFree := v }
  · rintro _ rfl
    exact h.dvd b ⟨k, hb⟩

/-! ### Splitting -/

/-- The upper half of a block of the order `j + 1` at `a`. -/
def upperHalf (a j : ℕ) : Blk := ⟨a + sizeAt j, sizeAt j, true⟩

/-- What a block at `a` of the order `index` is split into: a block in use and upper halves. -/
def halves (a index n : ℕ) : Set Blk :=
  Insert.insert ⟨a, sizeAt (index - n), false⟩
    {c | ∃ j, index - n ≤ j ∧ j < index ∧ c = upperHalf a j}

theorem mem_splitUpper {l : Slot} (hn : n ≤ index) :
    c ∈ splitUpper a n index P l ↔
      c ∈ P l ∨ ∃ j, index - n ≤ j ∧ j < index ∧ l = .order j ∧ c = upperHalf a j := by
  induction n generalizing index P with
  | zero =>
    have hnone : ¬ ∃ j, index - 0 ≤ j ∧ j < index ∧ l = .order j ∧ c = upperHalf a j := by
      rintro ⟨j, h1, h2, -⟩
      omega
    exact (or_iff_left hnone).symm
  | succ n ih =>
    rw [splitUpper, ih (by omega), mem_insert]
    constructor
    · rintro ((⟨hl, hc⟩ | hc) | ⟨j, h1, h2, h3⟩)
      · exact Or.inr ⟨index - 1, by omega, by omega, hl, hc⟩
      · exact Or.inl hc
      · exact Or.inr ⟨j, by omega, by omega, h3⟩
    · rintro (hc | ⟨j, h1, h2, hl, hc⟩)
      · exact Or.inl (Or.inr hc)
      · obtain rfl | hlt : j = index - 1 ∨ j < index - 1 := by omega
        · exact Or.inl (Or.inl ⟨hl, hc⟩)
        · exact Or.inr ⟨j, by omega, hlt, hl, hc⟩

/-- The lists once a free block is taken: the block gives way to its halves. -/
theorem Tiling.mem_take (h : P.Tiling base) (hb : b ∈ P (.order index)) (hn : n ≤ index)
    {l : Slot} :
    c ∈ P.take index n b l ↔ (c ∈ P l ∧ (l = .order index → c.addr ≠ b.addr)) ∨
      (l = .order (index - n) ∧ c = ⟨b.addr, sizeAt (index - n), false⟩) ∨
      ∃ j, index - n ≤ j ∧ j < index ∧ l = .order j ∧ c = upperHalf b.addr j := by
  rw [take]
  split_ifs with hn0
  · -- nothing is split
    have hnone : ¬ ∃ j, index - n ≤ j ∧ j < index ∧ l = .order j ∧ c = upperHalf b.addr j := by
      rintro ⟨j, h1, h2, -⟩
      omega
    have hbf : ({ b with isFree := false } : Blk) = ⟨b.addr, sizeAt (index - n), false⟩ := by
      rw [hn0, Nat.sub_zero, ← (h.sized index b hb).2]
    rw [or_iff_left hnone, mem_mark]
    constructor
    · rintro ⟨d, hd, rfl⟩
      split_ifs with hdb
      · obtain ⟨rfl, hdb⟩ := hdb
        rw [(h.eq_of_addr hd hb hdb).2, hbf]
        exact Or.inr ⟨by rw [hn0, Nat.sub_zero], rfl⟩
      · exact Or.inl ⟨hd, fun hl hda => hdb ⟨hl, hda⟩⟩
    · rintro (⟨hc, hne⟩ | ⟨rfl, rfl⟩)
      · exact ⟨c, hc, (if_neg fun hcond => hne hcond.1 hcond.2).symm⟩
      · refine ⟨b, by rwa [hn0, Nat.sub_zero], ?_⟩
        rw [if_pos ⟨by rw [hn0, Nat.sub_zero], rfl⟩, hbf]
  · rw [mem_insert, mem_splitUpper hn, mem_remove]
    exact or_left_comm

theorem Tiling.pool_take (h : P.Tiling base) (hb : b ∈ P (.order index)) (hn : n ≤ index) :
    (P.take index n b).pool = P.pool \ {b} ∪ halves b.addr index n := by
  ext c
  constructor
  · rintro ⟨j, hc⟩
    obtain ⟨hc', hne⟩ | ⟨-, rfl⟩ | ⟨i, h1, h2, -, rfl⟩ := (h.mem_take hb hn).mp hc
    · refine Or.inl ⟨⟨j, hc'⟩, ?_⟩
      rintro rfl
      exact hne (congrArg Slot.order (h.eq_of_addr hc' hb rfl).1) rfl
    · exact Or.inr (Set.mem_insert _ _)
    · exact Or.inr (Set.mem_insert_of_mem _ ⟨i, h1, h2, rfl⟩)
  · rintro (⟨⟨j, hc⟩, hcb⟩ | rfl | ⟨j, h1, h2, rfl⟩)
    · refine ⟨j, (h.mem_take hb hn).mpr (Or.inl ⟨hc, fun hj heq => hcb ?_⟩)⟩
      exact (h.eq_of_addr hc hb heq).2
    · exact ⟨index - n, (h.mem_take hb hn).mpr (Or.inr (Or.inl ⟨rfl, rfl⟩))⟩
    · exact ⟨j, (h.mem_take hb hn).mpr (Or.inr (Or.inr ⟨j, h1, h2, rfl, rfl⟩))⟩

/-- The halves of a block tile it: each upper half is as long as all below it. -/
theorem tiles_halves (a : ℕ) (hn : n ≤ index) (hindex : index ≤ maxOrder) :
    Tiles Blk.range (halves a index n) (Set.Ico a (a + sizeAt index)) := by
  obtain ⟨m, rfl⟩ : ∃ m, index = m + n := ⟨index - n, by omega⟩
  clear hn
  induction n with
  | zero =>
    have hhalves : halves a (m + 0) 0 = {⟨a, sizeAt m, false⟩} := by
      ext c
      refine ⟨?_, Or.inl⟩
      rintro (rfl | ⟨j, h1, h2, -⟩)
      · rfl
      · omega
    rw [hhalves]
    exact Tiles.singleton Blk.range ⟨a, sizeAt m, false⟩
  | succ n ih =>
    -- one more split: the halves of the lower half, and its upper neighbour
    have hhalves : halves a (m + (n + 1)) (n + 1) = halves a (m + n) n ∪ {upperHalf a (m + n)} := by
      ext c
      simp only [halves, Nat.add_sub_cancel, Set.mem_insert_iff, Set.mem_ofPred_eq, Set.mem_union,
        Set.mem_singleton_iff]
      constructor
      · rintro (rfl | ⟨j, h1, h2, hc⟩)
        · exact Or.inl (Or.inl rfl)
        · obtain rfl | hlt : j = m + n ∨ j < m + n := by omega
          · exact Or.inr hc
          · exact Or.inl (Or.inr ⟨j, h1, hlt, hc⟩)
      · rintro ((rfl | ⟨j, h1, h2, hc⟩) | hc)
        · exact Or.inl rfl
        · exact Or.inr ⟨j, h1, by omega, hc⟩
        · exact Or.inr ⟨m + n, by omega, by omega, hc⟩
    have hsize : a + sizeAt (m + (n + 1)) = a + sizeAt (m + n) + sizeAt (m + n) := by
      rw [← Nat.add_assoc m n 1, sizeAt_succ (by omega)]
      omega
    have hdisj : Disjoint (Set.Ico a (a + sizeAt (m + n))) (upperHalf a (m + n)).range :=
      Set.Ico_disjoint_Ico_same
    have hunion := (ih (by omega)).union (Tiles.singleton Blk.range (upperHalf a (m + n))) hdisj
    rw [hhalves, hsize]
    rwa [show Set.Ico a (a + sizeAt (m + n)) ∪ (upperHalf a (m + n)).range
      = Set.Ico a (a + sizeAt (m + n) + sizeAt (m + n)) from
        Set.Ico_union_Ico_eq_Ico (Nat.le_add_right _ _) (Nat.le_add_right _ _)] at hunion

/-- **Taking a block** keeps the tiling. -/
theorem Tiling.take (h : P.Tiling base) (hb : b ∈ P (.order index)) (hn : n ≤ index) :
    (P.take index n b).Tiling base := by
  obtain ⟨hindex, hsize⟩ := h.sized index b hb
  have hdvd : ∀ j ≤ index, sizeAt j ∣ b.addr := by
    intro j hj
    refine dvd_trans ?_ (h.dvd b ⟨index, hb⟩)
    rw [hsize]
    exact sizeAt_dvd hj hindex
  -- one block of the tiling is replaced by the parts it is cut into
  refine h.replace (h.pool_take hb hn) (Set.singleton_subset_iff.mpr ⟨index, hb⟩) ?_ ?_ ?_
  · rw [Set.biUnion_singleton]
    show Tiles Blk.range _ (Set.Ico b.addr (b.addr + b.size))
    rw [hsize]
    exact tiles_halves b.addr hn hindex
  · intro k c hc
    obtain ⟨hc, -⟩ | ⟨hk, rfl⟩ | ⟨j, -, hj, hk, rfl⟩ := (h.mem_take hb hn).mp hc
    · exact h.sized k c hc
    · obtain rfl := Slot.order.inj hk
      exact ⟨by omega, rfl⟩
    · obtain rfl := Slot.order.inj hk
      exact ⟨by omega, rfl⟩
  · rintro c (rfl | ⟨j, -, hj, rfl⟩)
    · exact hdvd _ (Nat.sub_le index n)
    · exact Nat.dvd_add (hdvd j hj.le) dvd_rfl

/-! ### Joining buddies -/

theorem mem_join {l : Slot} :
    c ∈ P.join i res neigh l ↔ (l = .order (i + 1) ∧ c = res.merged neigh) ∨
      c ∈ P l ∧ (l = .order i → c.addr ≠ res.addr ∧ c.addr ≠ neigh.addr) := by
  rw [join, mem_insert, mem_remove, mem_remove]
  tauto

@[simp] theorem join_mapped : P.join i res neigh .mapped = P .mapped := by
  simp [join, insert, remove]

theorem Tiling.pool_join (h : P.Tiling base) (hres : res ∈ P (.order i))
    (hneigh : neigh ∈ P (.order i)) :
    (P.join i res neigh).pool = P.pool \ {res, neigh} ∪ {res.merged neigh} := by
  ext c
  constructor
  · rintro ⟨j, hc⟩
    obtain ⟨-, rfl⟩ | ⟨hc', hne⟩ := mem_join.mp hc
    · exact Or.inr rfl
    · refine Or.inl ⟨⟨j, hc'⟩, ?_⟩
      -- a block is in one list only, so that neither of the two is left
      rintro (rfl | rfl)
      · exact (hne (congrArg Slot.order (h.eq_of_addr hc' hres rfl).1)).1 rfl
      · exact (hne (congrArg Slot.order (h.eq_of_addr hc' hneigh rfl).1)).2 rfl
  · rintro (⟨⟨j, hc⟩, hcb⟩ | rfl)
    · refine ⟨j, mem_join.mpr (Or.inr ⟨hc, fun _ => ⟨fun heq => hcb ?_, fun heq => hcb ?_⟩⟩)⟩
      · exact Or.inl (h.eq_of_addr hc hres heq).2
      · exact Or.inr (h.eq_of_addr hc hneigh heq).2
    · exact ⟨i + 1, mem_join.mpr (Or.inl ⟨rfl, rfl⟩)⟩

/-- **Joining two buddies** of one size keeps the tiling. -/
theorem Tiling.join (h : P.Tiling base) (hres : res ∈ P (.order i)) (hneigh : neigh ∈ P (.order i))
    (hi : i < maxOrder) (haddr : neigh.addr = res.addr ^^^ res.size) :
    (P.join i res neigh).Tiling base := by
  have hsize : neigh.size = res.size := by rw [(h.sized i _ hneigh).2, (h.sized i _ hres).2]
  have hdyadic := h.dyadic res ⟨i, hres⟩
  have hsub : ({res, neigh} : Set Blk) ⊆ P.pool :=
    Set.insert_subset ⟨i, hres⟩ (Set.singleton_subset_iff.mpr ⟨i, hneigh⟩)
  refine h.replace (h.pool_join hres hneigh) hsub ?_ ?_ ?_
  · -- the two halves make up the range of the merged block
    have hunion : ⋃ b ∈ ({res, neigh} : Set Blk), b.range = (res.merged neigh).range := by
      rw [Set.biUnion_pair]
      show Set.Ico _ _ ∪ Set.Ico neigh.addr (neigh.addr + neigh.size)
        = Set.Ico (min res.addr neigh.addr) (min res.addr neigh.addr + res.size * 2)
      rw [hsize, haddr]
      exact hdyadic.Ico_union_buddy
    rw [hunion]
    exact Tiles.singleton Blk.range _
  · apply ((h.sized.remove _ _).remove _ _).insert hi
    rw [sizeAt_succ hi, ← (h.sized i _ hres).2]
    rfl
  · rintro _ rfl
    show res.size * 2 ∣ min res.addr neigh.addr
    rw [haddr]
    exact hdyadic.min_buddy.dvd

/-! ### The merging loop -/

/-- Walking up from the block of `size` bytes at `a`, as `sfree` does while the buddy is free: each
free buddy has the size of the block that has been reached. -/
def CleanWalk (P : Lists) : ℕ → ℕ → ℕ → Prop
  | 0, _, _ => True
  | n + 1, a, size => size < size128K → ∀ c ∈ P.pool, c.addr = a ^^^ size → c.isFree = true →
      c.size = size ∧ P.CleanWalk n (min a c.addr) (size * 2)

/-- The blocks in use are the same. -/
def SameInUse (P P' : Lists) : Prop :=
  P' .mapped = P .mapped ∧ ∀ l c, c.isFree = false → (c ∈ P' l ↔ c ∈ P l)

theorem SameInUse.refl : P.SameInUse P := ⟨rfl, fun _ _ _ => Iff.rfl⟩

theorem SameInUse.trans {P' P'' : Lists} (h : P.SameInUse P') (h' : P'.SameInUse P'') :
    P.SameInUse P'' :=
  ⟨h'.1.trans h.1, fun l c hc => (h'.2 l c hc).trans (h.2 l c hc)⟩

theorem Tiling.sameInUse_join (h : P.Tiling base) (hres : res ∈ P (.order i))
    (hneigh : neigh ∈ P (.order i)) (hfree : res.isFree = true) (hfree' : neigh.isFree = true) :
    P.SameInUse (P.join i res neigh) := by
  refine ⟨join_mapped, fun l c hc => ⟨fun hmem => ?_, fun hmem => ?_⟩⟩
  · obtain ⟨-, rfl⟩ | ⟨hmem, -⟩ := mem_join.mp hmem
    · exact absurd hc Bool.noConfusion
    · exact hmem
  · refine mem_join.mpr (Or.inr ⟨hmem, fun hl => ⟨fun heq => ?_, fun heq => ?_⟩⟩)
    all_goals rw [hl] at hmem
    · rw [(h.eq_of_addr hmem hres heq).2, hfree] at hc
      exact Bool.noConfusion hc
    · rw [(h.eq_of_addr hmem hneigh heq).2, hfree'] at hc
      exact Bool.noConfusion hc

/-- **The merging loop** ends, and leaves no two free buddies. Blocks other than the one that grows
are blocks of the lists `P₀` the walk is about. -/
theorem Tiling.merge {P₀ : Lists} (h : P.Tiling base) (hres : res ∈ P (.order i))
    (hi : i < maxOrder) (hfree : res.isFree = true) (hold : ∀ c ∈ P.pool, c ≠ res → c ∈ P₀.pool)
    (hbuddies : ∀ b ∈ P.pool, ∀ c ∈ P.pool, FreeBuddies b c → b = res ∨ c = res)
    (hwalk : P₀.CleanWalk n res.addr res.size) (hn : maxOrder ≤ i + n) :
    ∃ P', P.merge (n + 1) res = some P' ∧ P'.Tiling base ∧ P'.NoFreeBuddies ∧ P.SameInUse P' := by
  induction n generalizing P res i with
  | zero => omega
  | succ n ih =>
    obtain ⟨-, hsize⟩ := h.sized i res hres
    have hlt : res.size < size128K := hsize ▸ (sizeAt_lt_128K hi.le).mpr hi
    -- in a tiling there is a block at the buddy address
    obtain ⟨neigh, hneigh, haddr, -⟩ := h.exists_neighbor ⟨i, hres⟩ hlt
    have hne : neigh ≠ res := by
      rintro rfl
      exact Heap.Repr.xor_size_ne (h.dyadic _ hneigh).pos.ne' haddr.symm
    rw [Lists.merge, ← haddr, h.lookup_eq hneigh]
    -- the loop goes on exactly if that block is free
    by_cases hnf : neigh.isFree = true
    · obtain ⟨hnsize, hwalk'⟩ := hwalk hlt neigh (hold neigh hneigh hne) haddr hnf
      -- the walk is clean, so that the two blocks have one size
      have hneigh' : neigh ∈ P (.order i) := by
        obtain ⟨j, hj⟩ := hneigh
        obtain ⟨hjm, hjs⟩ := h.sized j neigh hj
        rwa [sizeAt_injective hjm hi.le (by rw [← hjs, ← hsize, hnsize])] at hj
      have hjoin := h.join hres hneigh' hi haddr
      have hsame := h.sameInUse_join hres hneigh' hfree hnf
      -- what is left of the old blocks
      have hrest : ∀ c ∈ (P.join i res neigh).pool, c ≠ res.merged neigh →
          c ∈ P.pool ∧ c ≠ res := by
        intro c hc hcm
        rw [h.pool_join hres hneigh'] at hc
        exact ⟨(hc.resolve_right hcm).1, fun heq => (hc.resolve_right hcm).2 (Or.inl heq)⟩
      -- a pair of free buddies without the merged block was one before
      have hbuddies' : ∀ b ∈ (P.join i res neigh).pool, ∀ c ∈ (P.join i res neigh).pool,
          FreeBuddies b c → b = res.merged neigh ∨ c = res.merged neigh := by
        intro b hb c hc hbc
        by_contra hnot
        rw [not_or] at hnot
        obtain ⟨hb, hbr⟩ := hrest b hb hnot.1
        obtain ⟨hc, hcr⟩ := hrest c hc hnot.2
        exact (hbuddies b hb c hc hbc).elim hbr hcr
      have hlow : ¬ (neigh.addr < res.addr ∧ neigh.size ≠ res.size) := fun hcond => hcond.2 hnsize
      have hindex : findSizeIndexInList res.size = some i :=
        hsize ▸ findSizeIndexInList_sizeAt hi.le
      simp only [hnf, hlt, and_self, if_true, hindex, if_neg hlow]
      split_ifs with hlast
      · -- a block of 128 KiB has no buddy
        refine ⟨_, rfl, hjoin, fun b hb c hc hbc => ?_, hsame⟩
        obtain rfl | rfl := hbuddies' b hb c hc hbc
        · exact hbc.2.2.1.ne hlast
        · exact hbc.symm.2.2.1.ne hlast
      · have hi' : i + 1 < maxOrder := by
          refine lt_of_le_of_ne hi fun heq => hlast ?_
          rw [hsize, ← sizeAt_succ hi, heq]
          rfl
        -- the same holds of the merged block, one order up
        obtain ⟨P', heq, htiling, hno, hsame'⟩ := ih hjoin (self_mem_insert _ _ _) hi' rfl
          (fun c hc hcm => hold c (hrest c hc hcm).1 (hrest c hc hcm).2) hbuddies' hwalk' (by omega)
        exact ⟨P', heq, htiling, hno, hsame.trans hsame'⟩
    · have hcond : ¬ (neigh.isFree = true ∧ res.size < size128K) := fun hcond => hnf hcond.1
      simp only [if_neg hcond]
      refine ⟨P, rfl, h, fun b hb c hc hbc => ?_, .refl⟩
      -- a pair of free buddies would be `res` and the block looked at
      have hother : ∀ d ∈ P.pool, ¬ FreeBuddies res d := by
        rintro d hd ⟨-, hdf, -, -, hda⟩
        have hdn : d = neigh := by
          have := h.lookup_eq hd
          rw [hda, ← haddr, h.lookup_eq hneigh] at this
          exact (Option.some.inj this).symm
        exact hnf (hdn ▸ hdf)
      obtain rfl | rfl := hbuddies b hb c hc hbc
      · exact hother c hc hbc
      · exact hother b hb hbc.symm

/-! ### Allocating and freeing -/

/-- The payloads of the blocks in use. -/
def inUse (P : Lists) : Set ℕ := {p | ∃ l, ∃ b ∈ P l, b.isFree = false ∧ b.payload = p}

theorem SameInUse.inUse_eq {P' : Lists} (h : P.SameInUse P') : P'.inUse = P.inUse := by
  ext p
  refine exists_congr fun l => exists_congr fun b => ?_
  constructor
  · rintro ⟨hb, hfree, hp⟩
    exact ⟨(h.2 l b hfree).mp hb, hfree, hp⟩
  · rintro ⟨hb, hfree, hp⟩
    exact ⟨(h.2 l b hfree).mpr hb, hfree, hp⟩

/-- The search finds nothing, or it takes a free block, split down to the least order that fits. -/
theorem allocLoop_cases (P : Lists) {size splitNum : ℕ} (hi : i + n = maxOrder + 1)
    (hsplit : splitNum ≤ i) (hfits : splitNum ≠ 0 → size ≤ sizeAt (i - splitNum)) :
    allocLoop size n i splitNum P = (0, P) ∨
      ∃ index m b, m ≤ index ∧ b ∈ P (.order index) ∧ b.isFree = true ∧
        size ≤ sizeAt (index - m) ∧ allocLoop size n i splitNum P =
          (b.payload, P.take index m b) := by
  induction n generalizing i splitNum with
  | zero => exact Or.inl rfl
  | succ n ih =>
    rw [allocLoop]
    split_ifs with hsize
    · have hfits' : size ≤ sizeAt (i - splitNum) := by
        by_cases h0 : splitNum = 0
        · rwa [h0, Nat.sub_zero]
        · exact hfits h0
      -- a free block of this order, or the next order with one more split
      cases hfind : (P (.order i)).find? (Blk.fitsRequest size) with
      | some b =>
        have hfree : b.isFree = true := (Bool.and_eq_true _ _ ▸ List.find?_some hfind).1
        exact Or.inr ⟨i, splitNum, b, hsplit, List.mem_of_find?_eq_some hfind, hfree, hfits', rfl⟩
      | none => exact ih (by omega) (by omega) fun _ => by rwa [Nat.add_sub_add_right]
    · -- no order below fits either, so that nothing has been counted yet
      refine ih (by omega) (by omega) fun h0 => absurd ((hfits h0).trans ?_) hsize
      exact (sizeAt_strictMono (by omega) (by omega)).le

theorem alloc_cases (P : Lists) (size : ℕ) :
    P.alloc size = (0, P) ∨
      ∃ index m b, m ≤ index ∧ b ∈ P (.order index) ∧ b.isFree = true ∧
        size ≤ sizeAt (index - m) ∧ P.alloc size = (b.payload, P.take index m b) :=
  allocLoop_cases P (Nat.zero_add _) le_rfl fun h0 => absurd rfl h0

theorem take_mapped : P.take index n b .mapped = P .mapped := by
  have hupper : ∀ (Q : Lists) (a : ℕ), splitUpper a n index Q .mapped = Q .mapped := by
    intro Q a
    induction n generalizing index Q with
    | zero => rfl
    | succ n ih => rw [splitUpper, ih, insert, Function.update_of_ne Slot.noConfusion]
  rw [take]
  split_ifs
  · exact Function.update_of_ne Slot.noConfusion _ _
  · rw [insert, Function.update_of_ne Slot.noConfusion, hupper, remove,
      Function.update_of_ne Slot.noConfusion]

/-- Taking a block adds its payload to those in use. -/
theorem Tiling.inUse_take (h : P.Tiling base) (hb : b ∈ P (.order index)) (hn : n ≤ index)
    (hfree : b.isFree = true) : (P.take index n b).inUse = Insert.insert b.payload P.inUse := by
  ext p
  constructor
  · rintro ⟨l, c, hc, hcf, rfl⟩
    -- an old block, the block that is taken, or an upper half, which is free
    obtain ⟨hc, -⟩ | ⟨-, rfl⟩ | ⟨j, -, -, -, rfl⟩ := (h.mem_take hb hn).mp hc
    · exact Or.inr ⟨l, c, hc, hcf, rfl⟩
    · exact Or.inl rfl
    · exact absurd hcf Bool.noConfusion
  · rintro (rfl | ⟨l, c, hc, hcf, rfl⟩)
    · exact ⟨.order (index - n), _, (h.mem_take hb hn).mpr (Or.inr (Or.inl ⟨rfl, rfl⟩)), rfl, rfl⟩
    · refine ⟨l, c, (h.mem_take hb hn).mpr (Or.inl ⟨hc, fun hl heq => ?_⟩), hcf, rfl⟩
      rw [hl] at hc
      rw [(h.eq_of_addr hc hb heq).2, hfree] at hcf
      exact Bool.noConfusion hcf

/-- The buddy of an upper half is the block in use below it. -/
theorem upperHalf_buddy (hj : j < index) (hindex : index ≤ maxOrder) (ha : sizeAt index ∣ a) :
    (upperHalf a j).addr ^^^ (upperHalf a j).size = a := by
  have hdyadic : Dyadic a (sizeAt j) :=
    ⟨sizeAt_isPowerOfTwo (by omega), (sizeAt_dvd hj.le hindex).trans ha⟩
  have hdouble : sizeAt j * 2 ∣ a := by
    refine dvd_trans ?_ ha
    rw [← sizeAt_succ (by omega)]
    exact sizeAt_dvd hj hindex
  obtain ⟨-, heq⟩ | ⟨hd, heq⟩ := hdyadic.buddy_cases
  · show (a + sizeAt j) ^^^ sizeAt j = a
    rw [← heq, Nat.xor_xor_cancel_right]
  · -- both `a` and `a - sizeAt j` cannot be multiples of twice the size
    have hpos := hdyadic.pos
    have := (Nat.dvd_add_right hd.dvd).mp (heq ▸ hdouble)
    exact absurd (Nat.le_of_dvd hpos this) (by omega)

theorem NoFreeBuddies.take (hno : P.NoFreeBuddies) (h : P.Tiling base) (hb : b ∈ P (.order index))
    (hn : n ≤ index) : (P.take index n b).NoFreeBuddies := by
  obtain ⟨hindex, hsize⟩ := h.sized index b hb
  have htake := h.take hb hn
  have hlow : (⟨b.addr, sizeAt (index - n), false⟩ : Blk) ∈ (P.take index n b).pool :=
    ⟨index - n, (h.mem_take hb hn).mpr (Or.inr (Or.inl ⟨rfl, rfl⟩))⟩
  -- no block has a new upper half for its free buddy
  have hupper : ∀ c ∈ (P.take index n b).pool, ∀ j < index,
      ¬ FreeBuddies (upperHalf b.addr j) c := by
    rintro c hc j hj ⟨-, hcf, -, -, hca⟩
    rw [upperHalf_buddy hj hindex (hsize ▸ h.dvd b ⟨index, hb⟩)] at hca
    have hlook := htake.lookup_eq hc
    rw [hca, htake.lookup_eq hlow] at hlook
    rw [← Option.some.inj hlook] at hcf
    exact Bool.noConfusion hcf
  have hold : ∀ c ∈ (P.take index n b).pool, c.isFree = true →
      c ∈ P.pool ∨ ∃ j < index, c = upperHalf b.addr j := by
    intro c hc hcf
    rw [h.pool_take hb hn] at hc
    obtain ⟨hc, -⟩ | rfl | ⟨j, -, hj, rfl⟩ := hc
    · exact Or.inl hc
    · exact absurd hcf Bool.noConfusion
    · exact Or.inr ⟨j, hj, rfl⟩
  intro c hc d hd hcd
  -- two old blocks were no buddies before, and a new half has no free one
  obtain hcP | ⟨j, hj, rfl⟩ := hold c hc hcd.1
  · obtain hdP | ⟨j, hj, rfl⟩ := hold d hd hcd.2.1
    · exact hno c hcP d hdP hcd
    · exact hupper c hc j hj hcd.symm
  · exact hupper d hd j hj hcd

/-- **`sfree` of a pool block** keeps the tiling and leaves no two free buddies, provided that no
free buddy it meets is smaller than the block reached. -/
theorem Tiling.free (h : P.Tiling base) (hno : P.NoFreeBuddies) (hb : b ∈ P (.order k))
    (hapart : ∀ c ∈ P .mapped, c.addr ≠ b.addr) (hwalk : P.CleanWalk maxOrder b.addr b.size) :
    ∃ P', P.free (.order k) b = some P' ∧ P'.Tiling base ∧ P'.NoFreeBuddies ∧
      P' .mapped = P .mapped ∧ P'.inUse = P.inUse \ {b.payload} := by
  obtain ⟨hk, hsize⟩ := h.sized k b hb
  set Q := P.mark (.order k) b.addr true with hQ
  set res : Blk := { b with isFree := true } with hresdef
  have hmark : Q.Tiling base := h.mark hb true
  have hres : res ∈ Q (.order k) := mem_mark.mpr ⟨b, hb, (if_pos ⟨rfl, rfl⟩).symm⟩
  have hold : ∀ c ∈ Q.pool, c ≠ res → c ∈ P.pool := by
    intro c hc hne
    rw [hQ, h.pool_mark hb] at hc
    exact (hc.resolve_right hne).1
  -- before the merge, only the block that is freed can have a free buddy
  have hbuddies : ∀ c ∈ Q.pool, ∀ d ∈ Q.pool, FreeBuddies c d → c = res ∨ d = res := by
    intro c hc d hd hcd
    by_contra hnot
    rw [not_or] at hnot
    exact hno c (hold c hc hnot.1) d (hold d hd hnot.2) hcd
  have hmapped : Q .mapped = P .mapped := Function.update_of_ne Slot.noConfusion _ _
  have hinUse : Q.inUse = P.inUse \ {b.payload} := by
    ext p
    constructor
    · rintro ⟨l, c, hc, hcf, rfl⟩
      obtain ⟨d, hd, rfl⟩ := mem_mark.mp hc
      split_ifs at hcf ⊢ with hdb
      -- a block in use with this payload would be the block that is freed
      refine ⟨⟨l, d, hd, hcf, rfl⟩, fun heq => hdb ?_⟩
      have hda : d.addr = b.addr := Nat.add_right_cancel heq
      cases l with
      | mapped => exact absurd hda (hapart d hd)
      | order j => exact ⟨congrArg Slot.order (h.eq_of_addr hd hb hda).1, hda⟩
    · rintro ⟨⟨l, c, hc, hcf, rfl⟩, hne⟩
      refine ⟨l, c, mem_mark.mpr ⟨c, hc, (if_neg fun hcond => hne ?_).symm⟩, hcf, rfl⟩
      exact congrArg (· + metadataSize) hcond.2
  rw [Lists.free]
  simp only [← hQ]
  split_ifs with hlast
  · -- the largest blocks have no buddy
    refine ⟨Q, rfl, hmark, fun c hc d hd hcd => ?_, hmapped, hinUse⟩
    obtain rfl | rfl := hbuddies c hc d hd hcd
    · exact hcd.2.2.1.ne hlast
    · exact hcd.symm.2.2.1.ne hlast
  · have hk' : k < maxOrder := by
      refine lt_of_le_of_ne hk fun heq => hlast ?_
      rw [hsize, heq]
      rfl
    obtain ⟨P', heq, htiling, hno', hsame⟩ :=
      hmark.merge hres hk' rfl hold hbuddies hwalk (Nat.le_add_left _ _)
    exact ⟨P', heq, htiling, hno', hsame.1.trans hmapped, hsame.inUse_eq.trans hinUse⟩

/-! ### The pool at the start -/

theorem pool_poolLists :
    (poolLists base n).pool = {b | ∃ j < n, b = ⟨base + j * size128K, size128K, true⟩} := by
  ext b
  constructor
  · rintro ⟨k, hb⟩
    exact (mem_poolLists.mp hb).2
  · intro hb
    exact ⟨maxOrder, mem_poolLists.mpr ⟨rfl, hb⟩⟩

theorem tiles_poolLists (base n : ℕ) :
    Tiles Blk.range (poolLists base n).pool (Set.Ico base (base + n * size128K)) := by
  rw [pool_poolLists]
  induction n with
  | zero => exact ⟨by rintro b ⟨j, hj, -⟩; omega, by simp⟩
  | succ n ih =>
    have hpool : {b : Blk | ∃ j < n + 1, b = ⟨base + j * size128K, size128K, true⟩}
        = {b | ∃ j < n, b = ⟨base + j * size128K, size128K, true⟩} ∪
          {⟨base + n * size128K, size128K, true⟩} := by
      ext b
      simp only [Nat.lt_succ_iff_lt_or_eq, or_and_right, exists_or, exists_eq_left, Set.mem_union,
        Set.mem_ofPred_eq, Set.mem_singleton_iff]
    have hdisj : Disjoint (Set.Ico base (base + n * size128K))
        (Blk.range ⟨base + n * size128K, size128K, true⟩) := Set.Ico_disjoint_Ico_same
    have hunion := ih.union (Tiles.singleton Blk.range ⟨base + n * size128K, size128K, true⟩) hdisj
    have hIco : Set.Ico base (base + n * size128K) ∪ Blk.range ⟨base + n * size128K, size128K, true⟩
        = Set.Ico base (base + n * size128K + size128K) :=
      Set.Ico_union_Ico_eq_Ico (Nat.le_add_right _ _) (Nat.le_add_right _ _)
    rw [hpool, Nat.succ_mul, ← Nat.add_assoc, ← hIco]
    exact hunion

theorem tiling_poolLists (hbase : size128K ∣ base) : (poolLists base 32).Tiling base where
  base_dvd := hbase
  sized k b hb := by
    obtain ⟨hk, j, -, rfl⟩ := mem_poolLists.mp hb
    obtain rfl := Slot.order.inj hk
    exact ⟨le_rfl, rfl⟩
  dvd b hb := by
    rw [pool_poolLists] at hb
    obtain ⟨j, -, rfl⟩ := hb
    exact Nat.dvd_add hbase (Nat.dvd_mul_left _ _)
  tiles := tiles_poolLists base 32

theorem noFreeBuddies_poolLists : (poolLists base 32).NoFreeBuddies := by
  rintro b hb c - ⟨-, -, hlt, -⟩
  rw [pool_poolLists] at hb
  obtain ⟨j, -, rfl⟩ := hb
  exact hlt.ne rfl

end Lists

end OsHomework.Malloc3
