import OsHomework.Malloc3.Tiling

/-!
# The allocator at work

`Ready r s P` is the state of the allocator after the first `smalloc`: the heap `s` holds the lists
`P`, the pool blocks tile the arena in the region `r` that came from `sbrk`, every mapped block has
a region of its own, and all regions lie beside each other. Every call of a client that frees only
what it was given keeps it (`Ready.smalloc`, `Ready.sfree_order`, `Ready.sfree_mapped`), and so does
writing to a payload (`Ready.of_payload`).
-/

namespace OsHomework.Malloc3

/-- Where the pool starts in the region that `sbrk` granted: at the next multiple of 128 KiB. -/
def poolBase (r : ℕ × ℕ) : ℕ := r.1 - r.1 % size128K + size128K

/-- The bytes of a mapped block, as a region. -/
def Blk.region (b : Blk) : ℕ × ℕ := (b.addr, b.size)

structure Ready (r : ℕ × ℕ) (s : Heap) (P : Lists) : Prop where
  firstMalloc : s.firstMalloc = false
  repr : s.Repr P
  tiling : P.Tiling (poolBase r)
  room : poolBase r + 32 * size128K ≤ r.1 + r.2
  lt : r.1 + r.2 < wordLimit
  regions : s.regions.Perm (r :: (P .mapped).map Blk.region)
  beside : (r :: (P .mapped).map Blk.region).Pairwise Beside
  mapped : ∀ b ∈ P .mapped,
    b.isFree = false ∧ size128K < b.size ∧ b.addr ≠ 0 ∧ b.addr + b.size < wordLimit

theorem Beside.symm {r r' : ℕ × ℕ} (h : Beside r r') : Beside r' r := Or.symm h

instance : Std.Symm Beside := ⟨fun _ _ => Beside.symm⟩

theorem poolBase_bounds (r : ℕ × ℕ) : r.1 ≤ poolBase r ∧ poolBase r ≠ 0 := by
  have := Nat.mod_lt r.1 (show 0 < size128K by decide)
  have hpos : 0 < size128K := by decide
  rw [poolBase]
  omega

/-- A pool block lies in the arena, numbers instead of sets. -/
theorem Lists.Tiling.bounds {P : Lists} {base : ℕ} {b : Blk} (h : P.Tiling base) (hb : b ∈ P.pool) :
    base ≤ b.addr ∧ b.addr + b.size ≤ base + 32 * size128K := by
  have hpos := (h.dyadic b hb).pos
  exact (Set.Ico_subset_Ico_iff (Nat.lt_add_of_pos_right hpos)).mp (h.tiles.subset hb)

/-- The smallest size divides all sizes and addresses of the pool. -/
theorem Lists.Tiling.dvd_128 {P : Lists} {base : ℕ} {b : Blk} (h : P.Tiling base)
    (hb : b ∈ P.pool) :
    128 ∣ b.size ∧ 128 ∣ b.addr := by
  obtain ⟨k, hb⟩ := hb
  obtain ⟨hk, hsize⟩ := h.sized k b hb
  have hdvd : 128 ∣ b.size := by
    rw [hsize, sizeAt_eq hk]
    exact Nat.dvd_mul_right _ _
  exact ⟨hdvd, hdvd.trans (h.dvd b ⟨k, hb⟩)⟩

/-- A pool block has room for a payload. -/
theorem Lists.Tiling.metadataSize_lt {P : Lists} {base : ℕ} {b : Blk} (h : P.Tiling base)
    (hb : b ∈ P.pool) : metadataSize < b.size := by
  have hle : 128 ≤ b.size := Nat.le_of_dvd (h.dyadic b hb).pos (h.dvd_128 hb).1
  exact lt_of_lt_of_le (by decide) hle

namespace Ready

variable {r : ℕ × ℕ} {s s' : Heap} {P P' : Lists} {i j : Slot} {b c : Blk} {os : Answers} {size : ℕ}

/-- The arena and a mapped block. -/
theorem mapped_beside (h : Ready r s P) (hc : c ∈ P .mapped) :
    c.addr + c.size ≤ poolBase r ∨ poolBase r + 32 * size128K ≤ c.addr := by
  have hbeside := (List.pairwise_cons.mp h.beside).1 c.region (List.mem_map_of_mem hc)
  have hroom := h.room
  have hbase := (poolBase_bounds r).1
  rw [Beside, Blk.region] at hbeside
  simp only at hbeside
  omega

/-- **No two blocks overlap**, in whatever lists they are. -/
theorem separate (h : Ready r s P) (hb : b ∈ P i) (hc : c ∈ P j) (hne : b.addr ≠ c.addr) :
    b.addr + b.size ≤ c.addr ∨ c.addr + c.size ≤ b.addr := by
  -- the arena ends where the pool does, and mappings lie beside it
  have hmixed : ∀ {k : ℕ} {b c : Blk}, b ∈ P (.order k) → c ∈ P .mapped →
      b.addr + b.size ≤ c.addr ∨ c.addr + c.size ≤ b.addr := by
    intro k b c hb hc
    have h1 := h.tiling.bounds ⟨k, hb⟩
    have h2 := h.mapped_beside hc
    omega
  cases i with
  | mapped =>
    cases j with
    | mapped =>
      -- two mappings were granted beside each other
      have hpair := (List.pairwise_cons.mp h.beside).2
      exact hpair.forall (List.mem_map_of_mem hb) (List.mem_map_of_mem hc)
        fun heq => hne (congrArg Prod.fst heq)
    | order k => exact (hmixed hc hb).symm
  | order k =>
    cases j with
    | mapped => exact hmixed hb hc
    | order k' =>
      -- two blocks of the pool are tiles
      have hdisj := h.tiling.tiles.disjoint ⟨k, hb⟩ ⟨k', hc⟩ fun heq => hne (congrArg Blk.addr heq)
      have h1 := (h.tiling.dyadic b ⟨k, hb⟩).pos
      have h2 := (h.tiling.dyadic c ⟨k', hc⟩).pos
      have hmin := Set.Ico_disjoint_Ico.mp hdisj
      omega

/-- Every block is longer than its header. -/
theorem metadataSize_lt (h : Ready r s P) (hb : b ∈ P i) : metadataSize < b.size := by
  cases i with
  | mapped =>
    have := (h.mapped b hb).2.1
    simp only [size128K, metadataSize] at this ⊢
    omega
  | order k => exact h.tiling.metadataSize_lt ⟨k, hb⟩

/-- A write inside a payload. -/
theorem of_payload (h : Ready r s P) (hb : b ∈ P i) {m : Mem}
    (hm : ∀ x, x < b.payload ∨ b.addr + b.size ≤ x → m x = s.mem x) : Ready r (s.setMem m) P := by
  refine { h with repr := h.repr.congr (fun _ => rfl) fun a ha f => ?_ }
  obtain ⟨j, c, hc, rfl⟩ := ha
  refine Layout.get_congr fun x hx => hm x ?_
  have h1 := hx.1
  have h2 : x < c.addr + metadataSize := hx.2
  have hlen := h.metadataSize_lt hc
  rw [Blk.payload]
  -- a header lies in front of the own payload, or in another block
  by_cases heq : b.addr = c.addr
  · omega
  · have := h.separate hb hc heq
    omega

/-- A client writing byte `n` of a payload in use. -/
theorem write {p n : ℕ} (h : Ready r s P) (hp : p ∈ P.inUse) (hn : n < s.payloadSize p)
    (v : UInt8) :
    Ready r (s.setMem (Function.update s.mem (p + n) v)) P := by
  obtain ⟨l, b, hb, hbf, rfl⟩ := hp
  rw [Heap.payloadSize, Blk.payload_sub, (h.repr.node l b hb).size] at hn
  refine h.of_payload hb fun x hx => Function.update_of_ne ?_ _ _
  rw [Blk.payload] at hx ⊢
  omega

/-- What the system may answer depends only on the lists. -/
theorem served (h : Ready r s P) (h' : Ready r s' P) (hserved : s.Served os size) :
    s'.Served os size where
  sbrk hfirst := absurd (h'.firstMalloc.symm.trans hfirst) Bool.noConfusion
  mmap hvalid hlarge := by
    obtain ⟨h1, h2, h3⟩ := hserved.mmap hvalid hlarge
    rw [h.firstMalloc, if_neg Bool.noConfusion] at h3
    rw [h'.firstMalloc, if_neg Bool.noConfusion]
    exact ⟨h1, h2, fun x hx => h3 x (h.regions.mem_iff.mpr (h'.regions.mem_iff.mp hx))⟩

/-! ### The grid of headers -/

/-- Where headers may be: at the multiples of 128 in the arena, and at the mapped blocks. -/
def grid (r : ℕ × ℕ) (P : Lists) : Set ℕ :=
  {x | x ∈ arena (poolBase r) ∧ 128 ∣ x} ∪ {a | ∃ b ∈ P .mapped, b.addr = a}

theorem addrs_subset_grid (h : Ready r s P) : P.addrs ⊆ grid r P := by
  rintro _ ⟨i, b, hb, rfl⟩
  cases i with
  | mapped => exact Or.inr ⟨b, hb, rfl⟩
  | order k =>
    exact Or.inl ⟨h.tiling.tiles.subset ⟨k, hb⟩ (h.tiling.addr_mem_range ⟨k, hb⟩),
      (h.tiling.dvd_128 ⟨k, hb⟩).2⟩

/-- A place of the grid inside the arena has room for a header. -/
theorem arena_bounds (h : Ready r s P) {x : ℕ} (hx : x ∈ arena (poolBase r)) (hdvd : 128 ∣ x) :
    poolBase r ≤ x ∧ x + 128 ≤ poolBase r + 32 * size128K := by
  obtain ⟨h1, h2⟩ := hx
  obtain ⟨m, hm⟩ := h.tiling.base_dvd
  obtain ⟨q, rfl⟩ := hdvd
  refine ⟨h1, ?_⟩
  simp only [hm, size128K] at h1 h2 ⊢
  omega

theorem apart_grid (h : Ready r s P) : Apart (grid r P) where
  sep := by
    have hroom := fun {x : ℕ} => h.arena_bounds (x := x)
    have hmixed : ∀ {x : ℕ} {b : Blk}, x ∈ arena (poolBase r) → 128 ∣ x → b ∈ P .mapped →
        x + metadataSize ≤ b.addr ∨ b.addr + metadataSize ≤ x := by
      intro x b hx hdvd hb
      have h1 := hroom hx hdvd
      have h2 := h.mapped_beside hb
      have h3 := h.metadataSize_lt hb
      simp only [metadataSize] at h3 ⊢
      omega
    rintro p (⟨hp, hpd⟩ | ⟨b, hb, rfl⟩) q (⟨hq, hqd⟩ | ⟨c, hc, rfl⟩)
    · -- two multiples of 128 are 128 apart, a header has 48 bytes
      obtain ⟨u, rfl⟩ := hpd
      obtain ⟨v, rfl⟩ := hqd
      simp only [metadataSize]
      omega
    · exact Or.inr (hmixed hp hpd hc)
    · exact Or.inr (hmixed hq hqd hb).symm
    · by_cases heq : b.addr = c.addr
      · exact Or.inl heq
      · have h1 := h.separate hb hc heq
        have h2 := h.metadataSize_lt hb
        have h3 := h.metadataSize_lt hc
        omega
  pos := by
    rintro p (⟨hp, -⟩ | ⟨b, hb, rfl⟩)
    · have h1 := (poolBase_bounds r).2
      have h2 := hp.1
      omega
    · exact (h.mapped b hb).2.2.1
  lt := by
    rintro p (⟨hp, hd⟩ | ⟨b, hb, rfl⟩)
    · have h1 := h.arena_bounds hp hd
      have h2 := h.room
      have h3 := h.lt
      simp only [metadataSize]
      omega
    · have h1 := (h.mapped b hb).2.2.2
      have h2 := h.metadataSize_lt hb
      omega

/-- Where a search for `size` bytes may write headers: at the blocks, and where an upper half of a
free block that is large enough would start. -/
def freeGrid (size : ℕ) (P : Lists) : Set ℕ :=
  P.addrs ∪ {x | ∃ k ≤ maxOrder, ∃ b ∈ P (.order k), b.fitsRequest size = true ∧
    ∃ j < k, x = b.addr + sizeAt j}

/-- An upper half that is split off starts a header where there was none. -/
theorem grid_upperHalf {k l : ℕ} (h : Ready r s P) (hk : k ≤ maxOrder) (hb : b ∈ P (.order k))
    (hj : l < k) : b.addr + sizeAt l ∈ grid r P ∧ b.addr + sizeAt l ∉ P.addrs := by
  obtain ⟨-, hsize⟩ := h.tiling.sized k b hb
  -- the half starts inside the block, where no other block does
  have hlt := sizeAt_strictMono hj hk
  have hpos := sizeAt_pos (hj.le.trans hk)
  have hinside : b.addr + sizeAt l ∈ b.range :=
    ⟨Nat.le_add_right _ _, by rw [hsize]; exact Nat.add_lt_add_left hlt _⟩
  refine ⟨Or.inl ⟨h.tiling.tiles.subset ⟨k, hb⟩ hinside, ?_⟩, ?_⟩
  · refine Nat.dvd_add (h.tiling.dvd_128 ⟨k, hb⟩).2 ?_
    rw [sizeAt_eq (hj.le.trans hk)]
    exact Nat.dvd_mul_right _ _
  · -- a header there would belong to a block that overlaps this one
    rintro ⟨i, c, hc, heq⟩
    have hsep := h.separate hb hc (by omega)
    have hlen := h.metadataSize_lt hc
    have h1 : b.addr + sizeAt l < b.addr + b.size := hinside.2
    omega

theorem freeGrid_subset (h : Ready r s P) : freeGrid size P ⊆ grid r P := by
  rintro x (hx | ⟨k, hk, b, hb, -, l, hl, rfl⟩)
  · exact h.addrs_subset_grid hx
  · exact (h.grid_upperHalf hk hb hl).1

theorem apart_freeGrid (h : Ready r s P) : Apart (freeGrid size P) :=
  h.apart_grid.mono h.freeGrid_subset

theorem splitRoom (h : Ready r s P) : SplitRoom (freeGrid size P) size P :=
    fun k hk b hb hfit l hl =>
  ⟨Or.inr ⟨k, hk, b, hb, hfit, l, hl, rfl⟩, (h.grid_upperHalf hk hb hl).2⟩

/-- A payload is apart from all headers. -/
theorem addrs_apart_payload {n : ℕ} (h : Ready r s P) (hc : c ∈ P i)
    (hn : n < c.size - metadataSize) :
    ∀ a ∈ P.addrs, c.payload + n < a ∨ a + metadataSize ≤ c.payload + n := by
  have hpayload : c.payload = c.addr + metadataSize := rfl
  rintro a ⟨j, b, hb, rfl⟩
  have hlen := h.metadataSize_lt hb
  by_cases heq : b.addr = c.addr
  · omega
  · have := h.separate hb hc heq
    omega

/-- The payload of a block that the search passes over is apart from all places it may write to. -/
theorem freeGrid_apart_payload {n : ℕ} (h : Ready r s P) (hc : c ∈ P i)
    (hcf : c.fitsRequest size = false) (hn : n < c.size - metadataSize) :
    ∀ a ∈ freeGrid size P, c.payload + n < a ∨ a + metadataSize ≤ c.payload + n := by
  have hpayload : c.payload = c.addr + metadataSize := rfl
  rintro a (ha | ⟨k, hk, b, hb, hfit, l, hl, rfl⟩)
  · exact h.addrs_apart_payload hc hn a ha
  · -- an upper half lies inside a block that fits, with its header
    have hne : b.addr ≠ c.addr := by
      intro heq
      rw [(h.repr.eq_of_addr hb hc heq).2, hcf] at hfit
      exact Bool.noConfusion hfit
    have hsep := h.separate hb hc hne
    have hdouble : sizeAt l * 2 ≤ b.size := by
      rw [(h.tiling.sized k b hb).2]
      exact sizeAt_mul_two_le hl hk
    have hhdr := metadataSize_le_sizeAt (hl.le.trans hk)
    omega

end Ready

/-- The payloads of the blocks in use hold in `s'` what they hold in `s`. -/
def SamePayloads (P : Lists) (s s' : Heap) : Prop :=
  ∀ i, ∀ c ∈ P i, c.isFree = false → ∀ n < c.size - metadataSize,
    s'.mem (c.payload + n) = s.mem (c.payload + n)

/-! ### `smalloc` -/

/-- `smalloc` on lists. -/
def Lists.smalloc (P : Lists) (os : Answers) (size : ℕ) : ℕ × Lists :=
  if invalidSize size then (0, P)
  else if metadataSize + size ≤ size128K then P.alloc (metadataSize + size)
  else (os.mmapped + metadataSize,
    P.insert .mapped ⟨os.mmapped, metadataSize + size, false⟩)

/-- What `smalloc` can do to the lists. -/
inductive Allocates (P : Lists) (os : Answers) (size : ℕ) : ℕ → Lists → Prop
  /-- The size is refused, or the pool is exhausted. -/
  | refused : Allocates P os size 0 P
  /-- A free block of the pool is taken, split `n` times. -/
  | pool {index n : ℕ} {b : Blk} (hn : n ≤ index) (hb : b ∈ P (.order index))
      (hfree : b.isFree = true) (hfits : metadataSize + size ≤ sizeAt (index - n)) :
      Allocates P os size b.payload (P.take index n b)
  | mapped (hvalid : invalidSize size = false) (hlarge : size128K < metadataSize + size) :
      Allocates P os size (os.mmapped + metadataSize)
        (P.insert .mapped ⟨os.mmapped, metadataSize + size, false⟩)

theorem smalloc_allocates (P : Lists) (os : Answers) (size : ℕ) :
    Allocates P os size (P.smalloc os size).1 (P.smalloc os size).2 := by
  rw [Lists.smalloc]
  split_ifs with hvalid hsmall
  · exact .refused
  · obtain heq | ⟨index, n, b, hn, hb, hfree, hfits, heq⟩ := P.alloc_cases (metadataSize + size)
    · rw [heq]
      exact .refused
    · rw [heq]
      exact .pool hn hb hfree hfits
  · exact .mapped (Bool.not_eq_true _ ▸ hvalid) (not_le.mp hsmall)

theorem Lists.zero_notMem_inUse {P : Lists} : 0 ∉ P.inUse := by
  rintro ⟨l, b, -, -, h0⟩
  exact absurd h0 (Nat.ne_of_gt (Nat.lt_of_lt_of_le (by decide) (Nat.le_add_left _ _)))

namespace Allocates

variable {P P' : Lists} {os : Answers} {size ret base : ℕ}

theorem inUse_eq (h : Allocates P os size ret P') (ht : P.Tiling base) :
    P'.inUse = if ret = 0 then P.inUse else Insert.insert ret P.inUse := by
  have hpos : ∀ n, n + metadataSize ≠ 0 := fun n => Nat.succ_ne_zero _
  cases h with
  | refused => rfl
  | @pool index n b hn hb hfree hfits =>
    rw [ht.inUse_take hb hn hfree, Blk.payload, if_neg (hpos _)]
  | mapped hvalid hlarge =>
    rw [if_neg (hpos _)]
    ext p
    constructor
    · rintro ⟨l, c, hc, hcf, rfl⟩
      obtain ⟨-, rfl⟩ | hc := Lists.mem_insert.mp hc
      · exact Or.inl rfl
      · exact Or.inr ⟨l, c, hc, hcf, rfl⟩
    · rintro (rfl | ⟨l, c, hc, hcf, rfl⟩)
      · exact ⟨.mapped, _, Lists.self_mem_insert _ _ _, rfl, rfl⟩
      · exact ⟨l, c, Lists.mem_insert.mpr (Or.inr hc), hcf, rfl⟩

/-- A pointer that is returned is the payload of a block with room for the request. -/
theorem exists_block (h : Allocates P os size ret P') (ht : P.Tiling base) (hret : ret ≠ 0) :
    ∃ i, ∃ b ∈ P' i, b.payload = ret ∧ metadataSize + size ≤ b.size := by
  cases h with
  | refused => exact absurd rfl hret
  | pool hn hb hfree hfits =>
    exact ⟨_, _, (ht.mem_take hb hn).mpr (Or.inr (Or.inl ⟨rfl, rfl⟩)), rfl, hfits⟩
  | mapped hvalid hlarge => exact ⟨.mapped, _, Lists.self_mem_insert _ _ _, rfl, le_rfl⟩

end Allocates

namespace Ready

variable {r : ℕ × ℕ} {s s' : Heap} {P P' : Lists} {i j : Slot} {b c : Blk} {os : Answers} {size : ℕ}

theorem lt_of_valid (hvalid : invalidSize size = false) : metadataSize + size < wordLimit := by
  simp only [invalidSize, Bool.or_eq_false_iff, decide_eq_false_iff_not] at hvalid
  simp only [metadataSize, wordLimit]
  omega

/-- A heap with the same globals, other than the lists of the pool. -/
theorem of_frame {G : Set ℕ} (h : Ready r s P) (hf : Frame G s s') (hr : s'.Repr P')
    (ht : P'.Tiling (poolBase r)) (hm : P' .mapped = P .mapped) : Ready r s' P' where
  firstMalloc := hf.firstMalloc.trans h.firstMalloc
  repr := hr
  tiling := ht
  room := h.room
  lt := h.lt
  regions := by
    rw [hf.regions, hm]
    exact h.regions
  beside := by
    rw [hm]
    exact h.beside
  mapped := by
    rw [hm]
    exact h.mapped

/-- A fresh mapping lies beside every block. -/
theorem separate_mmapped {len : ℕ} (h : Ready r s P) (hok : os.MmapOk len s.regions)
    (hc : c ∈ P i) :
    c.addr + c.size ≤ os.mmapped ∨ os.mmapped + len ≤ c.addr := by
  have hbeside : ∀ x ∈ r :: (P .mapped).map Blk.region, Beside (os.mmapped, len) x :=
    fun x hx => hok.beside x (h.regions.mem_iff.mpr hx)
  cases i with
  | mapped => exact (hbeside c.region (List.mem_cons_of_mem _ (List.mem_map_of_mem hc))).symm
  | order k =>
    -- the arena is a part of what `sbrk` granted
    have h1 := h.tiling.bounds ⟨k, hc⟩
    have h2 := hbeside r List.mem_cons_self
    have h3 := h.room
    have h4 := (poolBase_bounds r).1
    rw [Beside] at h2
    simp only at h2
    omega

/-- The mapping case of `smalloc`. -/
theorem smallocMapped {len : ℕ} (h : Ready r s P) (hlen : size128K < len)
    (hok : os.MmapOk len s.regions) :
    ∃ s', s.smallocMapped os len = some (os.mmapped + metadataSize, s') ∧
      Ready r s' (P.insert .mapped ⟨os.mmapped, len, false⟩) ∧
      ∀ i, ∀ c ∈ P i, ∀ n < c.size - metadataSize,
        s'.mem (c.payload + n) = s.mem (c.payload + n) := by
  set new : Blk := ⟨os.mmapped, len, false⟩ with hnew
  have hlt := hok.lt
  have hhdr : metadataSize < len := lt_trans (by decide) hlen
  -- the new header is apart from all others, since the mapping is
  have hapart : Apart (Insert.insert os.mmapped P.addrs) := by
    have hap := h.repr.apart
    have hsep : ∀ p ∈ P.addrs, p + metadataSize ≤ os.mmapped ∨ os.mmapped + metadataSize ≤ p := by
      rintro _ ⟨i, c, hc, rfl⟩
      have h1 := h.separate_mmapped hok hc
      have h2 := h.metadataSize_lt hc
      omega
    refine ⟨?_, ?_, ?_⟩
    · rintro p (rfl | hp) q (rfl | hq)
      · exact Or.inl rfl
      · exact Or.inr (hsep q hq).symm
      · exact Or.inr (hsep p hp)
      · exact hap.sep p hp q hq
    · rintro p (rfl | hp)
      · exact hok.ne_zero
      · exact hap.pos p hp
    · rintro p (rfl | hp)
      · omega
      · exact hap.lt p hp
  have hnotMem : os.mmapped ∉ P.addrs := by
    rintro ⟨i, c, hc, heq⟩
    have h1 := h.separate_mmapped hok hc
    have h2 := h.metadataSize_lt hc
    omega
  have hfailed : os.mmapped ≠ failed := by
    rw [failed]
    omega
  obtain ⟨s', heq, hrepr, hfirst, hregions, hbytes⟩ :=
    h.repr.smallocMapped hapart hnotMem hfailed (show len < wordLimit by omega)
  -- the regions are those before and the new one, in whatever order
  have hperm : (r :: (P.insert .mapped new .mapped).map Blk.region).Perm
      (new.region :: r :: (P .mapped).map Blk.region) := by
    have hins : P.insert .mapped new .mapped
        = (P .mapped).orderedInsert (fun x y => x.addr < y.addr) new := Function.update_self ..
    rw [hins]
    exact (((List.perm_orderedInsert _ _ _).map _).cons r).trans (List.Perm.swap _ _ _)
  have hother : ∀ k, P.insert .mapped new (.order k) = P (.order k) :=
    fun k => Function.update_of_ne Slot.noConfusion _ _
  refine ⟨s', heq, ⟨hfirst.trans h.firstMalloc, hrepr, h.tiling.congr hother, h.room, h.lt, ?_,
    ?_, ?_⟩, fun i c hc n hn => hbytes _ ?_⟩
  · rw [hregions]
    exact (h.regions.cons _).trans hperm.symm
  · rw [hperm.pairwise_iff Beside.symm]
    exact List.pairwise_cons.mpr
      ⟨fun x hx => hok.beside x (h.regions.mem_iff.mpr hx), h.beside⟩
  · intro b hb
    obtain ⟨-, rfl⟩ | hb := Lists.mem_insert.mp hb
    · exact ⟨rfl, hlen, hok.ne_zero, hlt⟩
    · exact h.mapped b hb
  · -- the new mapping lies beside the block
    have hpayload : c.payload = c.addr + metadataSize := rfl
    rintro a (rfl | ha)
    · have := h.separate_mmapped hok hc
      omega
    · exact h.addrs_apart_payload hc hn a ha

/-- **`smalloc`** returns, and does to the lists what `Lists.smalloc` says; it writes to no payload
but those of free blocks that are large enough. -/
theorem smalloc_bytes (h : Ready r s P) (hserved : s.Served os size) :
    ∃ s', s.smalloc os size = some ((P.smalloc os size).1, s') ∧
      Ready r s' (P.smalloc os size).2 ∧
      ∀ i, ∀ c ∈ P i, c.fitsRequest (metadataSize + size) = false → ∀ n < c.size - metadataSize,
        s'.mem (c.payload + n) = s.mem (c.payload + n) := by
  have hfirst : ¬ s.firstMalloc = true := by rw [h.firstMalloc]; exact Bool.noConfusion
  rw [Heap.smalloc, Lists.smalloc]
  simp only [if_neg hfirst, Option.bind_eq_bind, Option.bind_some]
  cases hvalid : invalidSize size with
  -- a size that is refused
  | true => exact ⟨s, rfl, h, fun _ _ _ _ _ _ => rfl⟩
  | false =>
    have htot := lt_of_valid hvalid
    simp only [Nat.mod_eq_of_lt htot, Bool.false_eq_true, if_false]
    split_ifs with hsmall
    · -- the pool serves it
      have hroom : SplitRoom (freeGrid (metadataSize + size) P) (metadataSize + size) P :=
        h.splitRoom
      obtain ⟨s', heq, hrepr, hframe⟩ :=
        h.repr.findExactSizeBlock h.apart_freeGrid Set.subset_union_left hroom
      refine ⟨s', heq, ?_, fun i c hc hcf n hn =>
        hframe.bytes _ (h.freeGrid_apart_payload hc hcf hn)⟩
      obtain heq' | ⟨index, n, b, hn, hb, -, -, heq'⟩ := P.alloc_cases (metadataSize + size)
      · rw [heq'] at hrepr ⊢
        exact h.of_frame hframe hrepr h.tiling rfl
      · rw [heq'] at hrepr ⊢
        exact h.of_frame hframe hrepr (h.tiling.take hb hn) Lists.take_mapped
    · -- a mapping serves it
      have hok := hserved.mmap hvalid (not_le.mp hsmall)
      rw [if_neg hfirst] at hok
      obtain ⟨s', heq, hready, hbytes⟩ := h.smallocMapped (not_le.mp hsmall) hok
      exact ⟨s', heq, hready, fun i c hc _ => hbytes i c hc⟩

/-- No payload in use is written to. -/
theorem smalloc_payloads (h : Ready r s P) (hserved : s.Served os size) :
    ∃ s', s.smalloc os size = some ((P.smalloc os size).1, s') ∧
      Ready r s' (P.smalloc os size).2 ∧ SamePayloads P s s' := by
  obtain ⟨s', heq, hready, hbytes⟩ := h.smalloc_bytes hserved
  refine ⟨s', heq, hready, fun i c hc hcf => hbytes i c hc ?_⟩
  rw [Blk.fitsRequest, hcf, Bool.false_and]

theorem smalloc (h : Ready r s P) (hserved : s.Served os size) :
    ∃ s', s.smalloc os size = some ((P.smalloc os size).1, s') ∧
      Ready r s' (P.smalloc os size).2 := by
  obtain ⟨s', heq, hready, -⟩ := h.smalloc_payloads hserved
  exact ⟨s', heq, hready⟩

/-! ### `sfree` -/

/-- `sfree` of a pool block, when the lists are known to stay a tiling. -/
theorem sfree_order {k : ℕ} (h : Ready r s P) (hb : b ∈ P (.order k)) (hfree : b.isFree = false)
    (hP : P.free (.order k) b = some P') (ht : P'.Tiling (poolBase r))
    (hm : P' .mapped = P .mapped) :
    ∃ s', s.sfree b.payload = some s' ∧ Ready r s' P' := by
  obtain ⟨s', heq, hrepr, hframe⟩ := h.repr.sfree_order h.tiling.sized hb hfree hP
  exact ⟨s', heq, h.of_frame hframe hrepr ht hm⟩

/-- `sfree` of a mapped block. -/
theorem sfree_mapped (h : Ready r s P) (hb : b ∈ P .mapped) :
    ∃ s', s.sfree b.payload = some s' ∧ Ready r s' (P.remove .mapped b.addr) := by
  obtain ⟨s', heq, hrepr, hfirst, hregions, -⟩ := h.repr.sfree_mapped hb (h.mapped b hb).1
  set rest := P.remove .mapped b.addr .mapped with hrest
  have hperm : (P .mapped).Perm (b :: rest) := by
    -- the address tells the block from all others
    have herase : rest = (P .mapped).erase b := by
      rw [hrest, Lists.remove, Function.update_self]
      exact Lists.filter_addr_ne (h.repr.list .mapped).nodup hb
    rw [herase]
    exact List.perm_cons_erase hb
  have hcons : (r :: (P .mapped).map Blk.region).Perm (b.region :: r :: rest.map Blk.region) :=
    ((hperm.map _).cons r).trans (List.Perm.swap _ _ _)
  have hother : ∀ k, P.remove .mapped b.addr (.order k) = P (.order k) :=
    fun k => Function.update_of_ne Slot.noConfusion _ _
  refine ⟨s', heq, ⟨hfirst.trans h.firstMalloc, hrepr, h.tiling.congr hother, h.room, h.lt, ?_,
    ?_, ?_⟩⟩
  · -- `munmap` takes back the one region of the block
    have hmem : b.region ∈ s.regions :=
      h.regions.mem_iff.mpr (List.mem_cons_of_mem _ (List.mem_map_of_mem hb))
    have hall := ((List.perm_cons_erase hmem).symm.trans h.regions).trans hcons
    rw [hregions]
    exact hall.cons_inv
  · exact (List.pairwise_cons.mp ((hcons.pairwise_iff Beside.symm).mp h.beside)).2
  · exact fun c hc => h.mapped c (Lists.mem_remove.mp hc).1

end Ready

/-! ### The first call -/

section First

variable {s : Heap} {P : Lists} {os : Answers} {size : ℕ}

/-- A heap without blocks. -/
theorem Heap.Repr.of_empty (hs : ∀ i, s.list i = MDList.empty) (hP : ∀ i, P i = []) : s.Repr P := by
  have hnone : ∀ i, ∀ b, b ∉ P i := fun i b => hP i ▸ List.not_mem_nil
  have haddrs : ∀ a, a ∉ P.addrs := by
    rintro a ⟨i, b, hb, -⟩
    exact hnone i b hb
  refine ⟨⟨?_, ?_, ?_⟩, fun i => ?_, ?_, ?_⟩
  · exact fun p hp => absurd hp (haddrs p)
  · exact fun p hp => absurd hp (haddrs p)
  · exact fun p hp => absurd hp (haddrs p)
  · rw [hs i, hP i]
    exact .nil
  · exact fun i b hb => absurd hb (hnone i b)
  · exact fun i j b hb => absurd hb (hnone i b)

/-- An empty list has null pointers. -/
theorem Heap.Repr.list_eq_empty {i : Slot} (h : s.Repr P) (hP : P i = []) :
    s.list i = MDList.empty := by
  have hlist := h.list i
  rw [hP] at hlist
  have hhead : (s.list i).head = 0 := hlist.chain
  have htail : (s.list i).tail = 0 := hlist.tail
  rw [MDList.empty, ← hhead]
  nth_rewrite 2 [hhead]
  rw [← htail]

theorem Answers.SbrkOk.base_eq (hok : os.SbrkOk) :
    (os.pdAdrs + (wordLimit - os.prevProgramBreak % size128K) + size128K) % wordLimit
      = poolBase os.sbrked := by
  have hadrs := hok.adrs
  have hlt := hok.lt
  have hmod := Nat.mod_lt os.prevProgramBreak (show 0 < size128K by decide)
  have hle := Nat.mod_le os.prevProgramBreak size128K
  have hword : size128K < wordLimit := by decide
  simp only [Answers.sbrked, poolBase, hadrs] at hlt ⊢
  -- the break is moved up to the next multiple of 128 KiB
  generalize os.prevProgramBreak % size128K = pb at hmod hle hlt ⊢
  rw [show os.prevProgramBreak + (wordLimit - pb) + size128K
    = os.prevProgramBreak - pb + size128K + wordLimit by omega, Nat.add_mod_right]
  apply Nat.mod_eq_of_lt
  omega

/-- The region that is asked for ends where the pool does. -/
theorem Answers.SbrkOk.sbrked_end (hok : os.SbrkOk) :
    poolBase os.sbrked + 32 * size128K = os.sbrked.1 + os.sbrked.2 := by
  have hmod := Nat.mod_lt os.prevProgramBreak (show 0 < size128K by decide)
  have hle := Nat.mod_le os.prevProgramBreak size128K
  simp only [Answers.sbrked, poolBase, hok.adrs]
  omega

theorem poolBase_dvd (r : ℕ × ℕ) : size128K ∣ poolBase r := by
  refine Nat.dvd_add ?_ dvd_rfl
  exact Nat.dvd_sub_mod r.1

/-- **The first `smalloc`** sets the pool up: 32 free blocks. -/
theorem Ready.initPool (h : s.Fresh) (hok : os.SbrkOk) :
    ∃ s', s.initPool os = some s' ∧
      Ready os.sbrked s' (poolLists (poolBase os.sbrked) 32) := by
  set base := poolBase os.sbrked with hbase
  have hend := hok.sbrked_end
  have hlt := hok.lt
  have hpos := (poolBase_bounds os.sbrked).2
  have hfailed : os.pdAdrs ≠ failed := by
    have h1 := (poolBase_bounds os.sbrked).1
    have h2 : os.sbrked.1 = os.pdAdrs := rfl
    have h3 : 0 < size128K := by decide
    rw [failed]
    omega
  set s₁ : Heap := { s with firstMalloc := false, regions := [os.sbrked],
                            mdListArr := fun _ => MDList.empty } with hs₁
  have hempty : s₁.Repr (poolLists base 0) := by
    refine .of_empty (fun i => ?_) fun i => ?_
    · cases i with
      | order k => rfl
      | mapped => exact h.mappedList
    · exact List.eq_nil_iff_forall_not_mem.mpr fun b hb => by
        obtain ⟨-, j, hj, -⟩ := mem_poolLists.mp hb
        omega
  -- the headers of the 32 blocks
  have hgrid : Apart {x | ∃ j < 32, x = base + j * size128K} := by
    refine ⟨?_, ?_, ?_⟩
    · rintro _ ⟨j, -, rfl⟩ _ ⟨k, -, rfl⟩
      simp only [size128K, metadataSize]
      omega
    · rintro _ ⟨j, -, rfl⟩
      omega
    · rintro _ ⟨j, hj, rfl⟩
      have hj' := Nat.mul_le_mul_right size128K (Nat.le_of_lt_succ hj)
      have hhdr : metadataSize < size128K := by decide
      have h32 : 32 * size128K = 31 * size128K + size128K := by rw [Nat.succ_mul]
      omega
  obtain ⟨s₂, heq, hrepr, hframe⟩ := hempty.initLoop 32 hgrid fun j hj => ⟨j, by omega, rfl⟩
  rw [Nat.zero_mul, Nat.add_zero] at heq
  rw [Nat.zero_add] at hrepr
  have hmapped : s₂.mappedList = MDList.empty := hrepr.list_eq_empty (i := .mapped) rfl
  refine ⟨s₂, ?_, ⟨hframe.firstMalloc, hrepr, Lists.tiling_poolLists (poolBase_dvd _), hend.le, hlt,
    ?_, List.pairwise_singleton _ _, fun b hb => absurd hb List.not_mem_nil⟩⟩
  · -- `sbrk` has succeeded, and what it granted is recorded
    have hgrant : ({ s with firstMalloc := false } : Heap).grant os.pdAdrs
        (32 * size128K - os.prevProgramBreak % size128K + size128K)
          = { s with firstMalloc := false, regions := [os.sbrked] } := by
      rw [Heap.grant, if_neg hfailed]
      show ({ s with firstMalloc := false, regions := os.sbrked :: s.regions } : Heap) = _
      rw [h.regions]
    rw [Heap.initPool]
    simp only [hgrant, hok.base_eq, ← hbase, ← hs₁, heq, Option.bind_eq_bind, Option.bind_some]
    rw [← hmapped]
    rfl
  · rw [hframe.regions]
    exact List.Perm.refl _

/-- The first `smalloc` is a later one on the pool it has set up. -/
theorem Heap.smalloc_first {s' : Heap} (hfirst : s.firstMalloc = true)
    (hinit : s.initPool os = some s') (hlater : s'.firstMalloc = false) :
    s.smalloc os size = s'.smalloc os size := by
  rw [Heap.smalloc, Heap.smalloc]
  simp only [hfirst, hlater, hinit, if_true, Bool.false_eq_true, if_false, Option.bind_eq_bind,
    Option.bind_some]

/-- The mappings of the first `smalloc` come after its `sbrk`. -/
theorem Heap.Served.after_init {s' : Heap} (hserved : s.Served os size) (h : s.Fresh)
    (hready : Ready os.sbrked s' (poolLists (poolBase os.sbrked) 32)) : s'.Served os size where
  sbrk hfirst := absurd (hready.firstMalloc.symm.trans hfirst) Bool.noConfusion
  mmap hvalid hlarge := by
    obtain ⟨h1, h2, h3⟩ := hserved.mmap hvalid hlarge
    rw [if_pos h.firstMalloc, h.regions] at h3
    rw [hready.firstMalloc, if_neg Bool.noConfusion]
    exact ⟨h1, h2, fun x hx => h3 x (hready.regions.mem_iff.mp hx)⟩

/-- **The first `smalloc`**, as one on the lists of the new pool. -/
theorem Heap.Fresh.smalloc (h : s.Fresh) (hserved : s.Served os size) :
    ∃ s', s.smalloc os size
        = some (((poolLists (poolBase os.sbrked) 32).smalloc os size).1, s') ∧
      Ready os.sbrked s' ((poolLists (poolBase os.sbrked) 32).smalloc os size).2 := by
  obtain ⟨s₁, hinit, hready⟩ := Ready.initPool h (hserved.sbrk h.firstMalloc)
  rw [Heap.smalloc_first h.firstMalloc hinit hready.firstMalloc]
  exact hready.smalloc (hserved.after_init h hready)

end First

/-- A heap at program start. -/
def freshHeap : Heap := ⟨fun _ => 0, true, fun _ => MDList.empty, MDList.empty, []⟩

theorem freshHeap_fresh : freshHeap.Fresh := ⟨rfl, rfl, rfl, rfl⟩

/-- The break is at 128 KiB, so that the pool starts at 256 KiB. -/
def sampleAnswers : Answers := ⟨131072, 131072, 0⟩

theorem sampleAnswers_served {s : Heap} {size : ℕ} (hsmall : metadataSize + size ≤ size128K) :
    s.Served sampleAnswers size where
  sbrk _ := ⟨rfl, by decide⟩
  mmap _ hlarge := absurd hsmall (not_le.mpr hlarge)

/-- The system maps a block far above the pool. -/
def sampleMapping : Answers := ⟨131072, 131072, 2 ^ 33⟩

/-- The pool after `smalloc(60000)`, which splits its first block of 128 KiB. -/
def splitLists : Lists := ((poolLists 262144 32).smalloc sampleAnswers 60000).2

theorem lower_mem_splitLists : (⟨262144, 65536, false⟩ : Blk) ∈ splitLists (.order 9) :=
  List.mem_cons_self

theorem upper_mem_splitLists : (⟨327680, 65536, true⟩ : Blk) ∈ splitLists (.order 9) :=
  List.mem_cons_of_mem _ List.mem_cons_self

/-- `smalloc(200000)` behind it gets a mapping. -/
theorem exists_split_mapped :
    ∃ s₁ s₂, freshHeap.smalloc sampleAnswers 60000 = some (262192, s₁) ∧
      s₁.Served sampleMapping 200000 ∧
      s₁.smalloc sampleMapping 200000 = some (2 ^ 33 + metadataSize, s₂) ∧
      Ready sampleAnswers.sbrked s₂ (splitLists.insert .mapped ⟨2 ^ 33, 200048, false⟩) := by
  have hserved : freshHeap.Served sampleAnswers 60000 := sampleAnswers_served (by decide)
  obtain ⟨s₁, heq₁, hready₁⟩ := freshHeap_fresh.smalloc hserved
  have hnone : splitLists .mapped = [] := rfl
  have hserved' : s₁.Served sampleMapping 200000 := by
    refine ⟨fun hfirst => absurd (hready₁.firstMalloc.symm.trans hfirst) Bool.noConfusion,
      fun _ _ => ⟨by decide, by decide, fun r hr => ?_⟩⟩
    rw [hready₁.firstMalloc, if_neg Bool.noConfusion] at hr
    obtain rfl | hr := List.mem_cons.mp (hready₁.regions.mem_iff.mp hr)
    · exact Or.inr (by decide)
    · exact absurd hr List.not_mem_nil
  obtain ⟨s₂, heq₂, hready₂⟩ := hready₁.smalloc hserved'
  exact ⟨s₁, s₂, heq₁, hserved', heq₂, hready₂⟩

end OsHomework.Malloc3
