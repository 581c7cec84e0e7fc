import OsHomework.Malloc3.Stats
import Mathlib.Order.Nat

/-!
# Which block `smalloc` takes

The search of `findExactSizeBlock_ChallengeZero` goes through the orders from `0` on and counts the
lists it has passed over, from the first one whose blocks are large enough. On lists that hold one
size each, what it finds is the first free block of the least order that has one
(`Lists.alloc_of_least`), and the count is the number of splits that lead back to the least order
that fits; a search that finds nothing has changed nothing (`Ready.smalloc_null`).

`smalloc_best_fit` puts this together: the block taken, the blocks that are left of it, and the
number of blocks the statistics report afterwards.
-/

namespace OsHomework.Malloc3

/-! ### The search on lists -/

namespace Lists

variable {P : Lists} {size i j k m n : ℕ} {b c : Blk}

/-- In a list whose blocks are large enough, the search looks for the flag alone. -/
theorem Sized.find?_fitsRequest (h : P.Sized) (hfits : size ≤ sizeAt k) :
    (P (.order k)).find? (Blk.fitsRequest size) = (P (.order k)).find? Blk.isFree := by
  -- every block of the list has the size of its order
  have htest : ∀ b ∈ P (.order k), b.fitsRequest size = b.isFree := by
    intro b hb
    rw [Blk.fitsRequest, (h k b hb).2, decide_eq_true hfits, Bool.and_true]
  rw [← List.head?_filter, ← List.head?_filter, List.filter_congr htest]

/-- Lists of blocks that are too small are passed over and not counted. -/
theorem allocLoop_skip (hsmall : ∀ l < j, sizeAt l < size) (hij : i ≤ j) (hj : j ≤ maxOrder)
    (hi : i + n = maxOrder + 1) :
    allocLoop size n i 0 P = allocLoop size (maxOrder + 1 - j) j 0 P := by
  induction n generalizing i with
  | zero => omega
  | succ n ih =>
    rcases Nat.lt_or_eq_of_le hij with hlt | rfl
    · -- the blocks of this order are too small
      rw [allocLoop, if_neg (not_le.mpr (hsmall i hlt))]
      exact ih hlt (by omega)
    · rw [show maxOrder + 1 - i = n + 1 by omega]

/-- A search that passes over the orders `i, …, k - 1` and counts them. -/
theorem allocLoop_hit (h : P.Sized) (hfits : ∀ l, i ≤ l → l ≤ maxOrder → size ≤ sizeAt l)
    (hnone : ∀ l, i ≤ l → l < k → (P (.order l)).find? Blk.isFree = none) (hik : i ≤ k)
    (hk : k ≤ maxOrder) (hfind : (P (.order k)).find? Blk.isFree = some b)
    (hi : i + n = maxOrder + 1) : allocLoop size n i m P =
    (b.payload, P.take k (m + (k - i)) b) := by
  induction n generalizing i m with
  | zero => omega
  | succ n ih =>
    have hsize := hfits i le_rfl (by omega)
    rw [allocLoop, if_pos hsize, h.find?_fitsRequest hsize]
    rcases Nat.lt_or_eq_of_le hik with hlt | rfl
    · -- no block of this order is free, and the order is counted
      rw [hnone i le_rfl hlt]
      dsimp only
      rw [ih (fun l hl => hfits l (by omega)) (fun l hl => hnone l (by omega)) hlt (by omega),
        show m + 1 + (k - (i + 1)) = m + (k - i) by omega]
    · simp only [hfind, Nat.sub_self, Nat.add_zero]

/-- The least order whose blocks hold `size` bytes. -/
def LeastOrder (size j : ℕ) : Prop := j ≤ maxOrder ∧ size ≤ sizeAt j ∧ ∀ l < j, sizeAt l < size

theorem LeastOrder.fits (h : LeastOrder size j) {l : ℕ} (hjl : j ≤ l) (hl : l ≤ maxOrder) :
    size ≤ sizeAt l := h.2.1.trans (sizeAt_mono hjl hl)

/-- There is one for every small request. -/
theorem exists_leastOrder (hsize : size ≤ size128K) : ∃ j, LeastOrder size j := by
  classical
  -- the largest order fits
  have hex : ∃ j, size ≤ sizeAt j := ⟨maxOrder, hsize⟩
  refine ⟨Nat.find hex, Nat.find_min' hex hsize, Nat.find_spec hex, fun l hl => ?_⟩
  exact not_le.mp (Nat.find_min hex hl)

/-- **The search** takes the first free block of the least order that has one, split down to the
least order that fits. -/
theorem alloc_of_least (h : P.Sized) (hj : LeastOrder size j) (hjk : j ≤ k) (hk : k ≤ maxOrder)
    (hnone : ∀ l, j ≤ l → l < k → (P (.order l)).find? Blk.isFree = none)
    (hfind : (P (.order k)).find? Blk.isFree = some b) :
    P.alloc size = (b.payload, P.take k (k - j) b) := by
  unfold alloc
  rw [allocLoop_skip hj.2.2 (Nat.zero_le j) hj.1 (Nat.zero_add _)]
  -- from the least order that fits, the search counts the splits
  have hhit := allocLoop_hit (n := maxOrder + 1 - j) (m := 0) h
    (fun l => hj.fits) hnone hjk hk hfind
    (by have := hj.1; omega)
  rwa [Nat.zero_add] at hhit

/-- In a list sorted by address, the first free block is the lowest one. -/
theorem find?_isFree_of_lowest {L : List Blk} (hL : (L.map Blk.addr).Pairwise (· < ·)) (hb : b ∈ L)
    (hfree : b.isFree = true) (hlow : ∀ c ∈ L, c.isFree = true → b.addr ≤ c.addr) :
    L.find? Blk.isFree = some b := by
  induction L with
  | nil => exact absurd hb List.not_mem_nil
  | cons d L ih =>
    obtain ⟨hd, hL⟩ := List.pairwise_cons.mp hL
    rcases List.mem_cons.mp hb with rfl | hbL
    · exact List.find?_cons_of_pos hfree
    · -- the head lies below the block, so it is in use
      have hlt : d.addr < b.addr := hd b.addr (List.mem_map_of_mem hbL)
      have hdf : ¬ d.isFree = true := fun hdf =>
        absurd (hlow d List.mem_cons_self hdf) (not_le.mpr hlt)
      rw [List.find?_cons_of_neg hdf]
      exact ih hL hbL fun c hc => hlow c (List.mem_cons_of_mem d hc)

/-- The least order with a free block, and the lowest such block in it. -/
theorem exists_lowest (hjk : j ≤ k)(hb : b ∈ P (.order k)) (hfree : b.isFree = true) :
    ∃ i B, IsLeast {l | j ≤ l ∧ ∃ b ∈ P (.order l), b.isFree = true} i ∧ B ∈ P (.order i) ∧
      B.isFree = true ∧ ∀ c ∈ P (.order i), c.isFree = true → B.addr ≤ c.addr := by
  classical
  obtain ⟨i, hi⟩ : ∃ i, IsLeast {l | j ≤ l ∧ ∃ b ∈ P (.order l), b.isFree = true} i :=
    ⟨_, Nat.isLeast_find ⟨k, hjk, b, hb, hfree⟩⟩
  obtain ⟨c, hc, hcf⟩ := hi.1.2
  obtain ⟨a, ha⟩ : ∃ a, IsLeast {a | ∃ b ∈ P (.order i), b.isFree = true ∧ b.addr = a} a :=
    ⟨_, Nat.isLeast_find ⟨c.addr, c, hc, hcf, rfl⟩⟩
  obtain ⟨B, hB, hBf, rfl⟩ := ha.1
  exact ⟨i, B, hi, hB, hBf, fun c hc hcf => ha.2 ⟨c, hc, hcf, rfl⟩⟩

/-! ### Counting -/

/-- A sum over the orders when one of its terms changes. -/
theorem sum_range_update {f g : ℕ → ℕ} (hk : k < n) (hfg : ∀ l, l ≠ k → g l = f l) :
    ((List.range n).map g).sum + f k = ((List.range n).map f).sum + g k := by
  induction n with
  | zero => omega
  | succ n ih =>
    rw [List.range_succ, List.map_append, List.map_append, List.sum_append, List.sum_append]
    simp only [List.map_cons, List.map_nil, List.sum_cons, List.sum_nil, Nat.add_zero]
    rcases Nat.lt_or_eq_of_le (Nat.lt_succ_iff.mp hk) with hlt | rfl
    · have := ih hlt
      have := hfg n (by omega)
      omega
    · -- the last term is the one that changes
      have hsame : (List.range k).map g = (List.range k).map f :=
        List.map_congr_left fun l hl => hfg l (List.mem_range.mp hl).ne
      rw [hsame]
      omega

/-- Two pools that differ in one list. -/
theorem length_poolList_update {P' : Lists} (hk : k ≤ maxOrder)
    (hother : ∀ l, l ≠ k → P' (.order l) = P (.order l)) :
    P'.poolList.length + (P (.order k)).length = P.poolList.length + (P' (.order k)).length := by
  rw [P.sum_poolList List.length (fun _ _ => List.length_append) rfl,
    P'.sum_poolList List.length (fun _ _ => List.length_append) rfl]
  have hterms : ∀ l, l ≠ k → (P' (.order l)).length = (P (.order l)).length :=
    fun l hl => by rw [hother l hl]
  exact sum_range_update (f := fun l => (P (.order l)).length) (Nat.lt_succ_iff.mpr hk) hterms

theorem length_poolList_insert (hk : k ≤ maxOrder) :
    (P.insert (.order k) b).poolList.length = P.poolList.length + 1 := by
  have hother : ∀ l, l ≠ k → P.insert (.order k) b (.order l) = P (.order l) :=
    fun l hl => Function.update_of_ne (fun heq => hl (Slot.order.inj heq)) _ _
  have hself : (P.insert (.order k) b (.order k)).length = (P (.order k)).length + 1 := by
    rw [insert, Function.update_self, List.orderedInsert_length]
  have := length_poolList_update hk hother
  omega

theorem length_poolList_remove (hk : k ≤ maxOrder) (hb : b ∈ P (.order k))
    (hnodup : ((P (.order k)).map Blk.addr).Nodup) :
    (P.remove (.order k) b.addr).poolList.length + 1 = P.poolList.length := by
  have hother : ∀ l, l ≠ k → P.remove (.order k) b.addr (.order l) = P (.order l) :=
    fun l hl => Function.update_of_ne (fun heq => hl (Slot.order.inj heq)) _ _
  have hself : (P.remove (.order k) b.addr (.order k)).length = (P (.order k)).length - 1 := by
    rw [remove, Function.update_self, filter_addr_ne hnodup hb, List.length_erase_of_mem hb]
  have hpos := List.length_pos_of_mem hb
  have := length_poolList_update hk hother
  omega

theorem length_poolList_splitUpper {a index : ℕ} (hn : n ≤ index) (hindex : index ≤ maxOrder) :
    (splitUpper a n index P).poolList.length = P.poolList.length + n := by
  induction n generalizing index P with
  | zero => rfl
  | succ n ih =>
    rw [splitUpper, ih (by omega) (by omega), length_poolList_insert (by omega)]
    omega

/-- Every split makes one block more. -/
theorem length_poolList_take (hn : n ≤ k) (hk : k ≤ maxOrder) (hb : b ∈ P (.order k))
    (hnodup : ((P (.order k)).map Blk.addr).Nodup) :
    (P.take k n b).poolList.length = P.poolList.length + n := by
  unfold take
  split_ifs with hn0
  · have hother : ∀ l, l ≠ k → P.mark (.order k) b.addr false (.order l) = P (.order l) :=
      fun l hl => Function.update_of_ne (fun heq => hl (Slot.order.inj heq)) _ _
    have hself : (P.mark (.order k) b.addr false (.order k)).length = (P (.order k)).length := by
      rw [mark, Function.update_self, List.length_map]
    have := length_poolList_update hk hother
    omega
  · -- one block is taken out, and it comes back with a half for each split
    have hremove := length_poolList_remove hk hb hnodup
    rw [length_poolList_insert (by omega), length_poolList_splitUpper hn hk]
    omega

end Lists

/-! ### The search in the heap -/

section Search

variable {r : ℕ × ℕ} {s : Heap} {P : Lists} {os : Answers} {size i j k m n : ℕ} {b B : Blk}

/-- A search that finds nothing writes nothing. -/
theorem Heap.Repr.findExactLoop_miss (h : s.Repr P)
    (hnone : ∀ l, i ≤ l → l ≤ maxOrder → size ≤ sizeAt l →
      (P (.order l)).find? (Blk.fitsRequest size) = none)
    (hi : i + n = maxOrder + 1) : Heap.findExactLoop size n i m s = some (0, s) := by
  induction n generalizing i m with
  | zero => rfl
  | succ n ih =>
    unfold Heap.findExactLoop
    by_cases hsize : size ≤ sizeAt i
    · have hsearch : (s.mdListArr i).findFreeSizedBlock s.mem size = _ :=
        h.findFreeSizedBlock (.order i) size
      rw [if_pos hsize, hsearch, hnone i le_rfl (by omega) hsize]
      exact ih (fun l hl => hnone l (by omega)) (by omega)
    · rw [if_neg hsize]
      exact ih (fun l hl => hnone l (by omega)) (by omega)

/-- A request that fits a pool block is far below the limit. -/
theorem valid_of_small (hsize : 1 ≤ size) (hsmall : metadataSize + size ≤ size128K) :
    invalidSize size = false := by
  have hle : size ≤ 100000000 := (Nat.le_add_left _ _).trans (hsmall.trans (by decide))
  rw [invalidSize, Bool.or_eq_false_iff, beq_eq_false_iff_ne, decide_eq_false_iff_not]
  exact ⟨Nat.ne_of_gt hsize, not_lt.mpr hle⟩

/-- A small request needs no system call. -/
theorem Ready.served_small (h : Ready r s P) (hsmall : metadataSize + size ≤ size128K) :
    s.Served os size where
  sbrk hfirst := absurd (h.firstMalloc.symm.trans hfirst) Bool.noConfusion
  mmap _ hlarge := absurd hsmall (not_le.mpr hlarge)

/-- A small request, as `smalloc` sees it on a pool that is set up. -/
theorem Ready.smalloc_small (h : Ready r s P) (hsize : 1 ≤ size)
    (hsmall : metadataSize + size ≤ size128K) :
    s.smalloc os size = s.findExactSizeBlock_ChallengeZero (metadataSize + size) := by
  have hvalid := valid_of_small hsize hsmall
  have hword : metadataSize + size < wordLimit := hsmall.trans_lt (by decide)
  unfold Heap.smalloc
  simp only [h.firstMalloc, Bool.false_eq_true, if_false, hvalid, Nat.mod_eq_of_lt hword,
    if_pos hsmall, Option.bind_eq_bind, Option.bind_some]

/-- **A request that finds no free block leaves the heap as it is.** -/
theorem Ready.smalloc_null (h : Ready r s P) (hsize : 1 ≤ size)
    (hsmall : metadataSize + size ≤ size128K) (hj : Lists.LeastOrder (metadataSize + size) j)
    (hnone : ∀ l, j ≤ l → ∀ b ∈ P (.order l), b.isFree = false) :
    s.smalloc os size = some (0, s) := by
  rw [h.smalloc_small hsize hsmall]
  refine h.repr.findExactLoop_miss (fun l _ _ hfits => ?_) (Nat.zero_add _)
  -- an order whose blocks fit is not below the least one
  have hjl : j ≤ l := by
    by_contra hlt
    exact absurd hfits (not_le.mpr (hj.2.2 l (not_le.mp hlt)))
  refine List.find?_eq_none.mpr fun b hb hfit => ?_
  rw [Blk.fitsRequest, hnone l hjl b hb] at hfit
  exact absurd hfit (by simp)

/-- **A request that finds one** takes the lowest free block of the least order. -/
theorem Ready.smalloc_least (h : Ready r s P) (hsize : 1 ≤ size)
    (hsmall : metadataSize + size ≤ size128K) (hj : Lists.LeastOrder (metadataSize + size) j)
    (hjk : j ≤ k) (hnone : ∀ l, j ≤ l → l < k → ∀ b ∈ P (.order l), b.isFree = false)
    (hb : b ∈ P (.order k)) (hfree : b.isFree = true)
    (hlow : ∀ c ∈ P (.order k), c.isFree = true → b.addr ≤ c.addr) :
    ∃ t, s.smalloc os size = some (b.payload, t) ∧ Ready r t (P.take k (k - j) b) ∧
      SamePayloads P s t := by
  have hfind := Lists.find?_isFree_of_lowest (h.repr.list (.order k)).sorted hb hfree hlow
  -- the lists below have no free block for the search to find
  have hbelow : ∀ l, j ≤ l → l < k → (P (.order l)).find? Blk.isFree = none := by
    intro l hjl hlk
    refine List.find?_eq_none.mpr fun c hc => ?_
    rw [hnone l hjl hlk c hc]
    exact Bool.false_ne_true
  have halloc := Lists.alloc_of_least h.tiling.sized hj hjk (h.tiling.sized k b hb).1 hbelow hfind
  have hvalid := valid_of_small hsize hsmall
  have hlists : P.smalloc os size = (b.payload, P.take k (k - j) b) := by
    unfold Lists.smalloc
    rw [hvalid, if_neg Bool.false_ne_true, if_pos hsmall, halloc]
  obtain ⟨t, heq, hready, hsame⟩ := h.smalloc_payloads (h.served_small hsmall)
  rw [hlists] at heq hready
  exact ⟨t, heq, hready, hsame⟩

/-- The same, with the order given as the least one that has a free block. -/
theorem Ready.smalloc_isLeast (h : Ready r s P) (hsize : 1 ≤ size)
    (hsmall : metadataSize + size ≤ size128K) (hj : Lists.LeastOrder (metadataSize + size) j)
    (hi : IsLeast {l | j ≤ l ∧ ∃ b ∈ P (.order l), b.isFree = true} i) (hB : B ∈ P (.order i))
    (hfree : B.isFree = true) (hlow : ∀ c ∈ P (.order i), c.isFree = true → B.addr ≤ c.addr) :
    ∃ t, s.smalloc os size = some (B.payload, t) ∧ Ready r t (P.take i (i - j) B) ∧
      SamePayloads P s t := by
  refine h.smalloc_least hsize hsmall hj hi.1.1 (fun l hjl hli b hb => ?_) hB hfree hlow
  -- a free block of a lower order would contradict the choice of `i`
  by_contra hbf
  exact absurd (hi.2 ⟨hjl, b, hb, by simpa using hbf⟩) (not_le.mpr hli)

/-- A small request returns `NULL` only if there is no free block that is large enough. -/
theorem Ready.no_free_of_null {t : Heap} (h : Ready r s P) (hsize : 1 ≤ size)
    (hsmall : metadataSize + size ≤ size128K) (hj : Lists.LeastOrder (metadataSize + size) j)
    (hnull : s.smalloc os size = some (0, t)) :
    ∀ l, j ≤ l → ∀ b ∈ P (.order l), b.isFree = false := by
  by_contra hsome
  push Not at hsome
  obtain ⟨l, hjl, b, hb, hbf⟩ := hsome
  obtain ⟨i, B, hi, hB, hfree, hlow⟩ := Lists.exists_lowest hjl hb (by simpa using hbf)
  obtain ⟨t', heq, -⟩ := h.smalloc_isLeast hsize hsmall hj hi hB hfree hlow
  rw [hnull] at heq
  exact Nat.succ_ne_zero _ (congrArg Prod.fst (Option.some.inj heq)).symm

end Search

/-! ### How many blocks there can be -/

section Count

variable {r : ℕ × ℕ} {s : Heap} {P : Lists}

/-- What the system grants lies in the lower half of the 48-bit address space of a process. -/
def Heap.UserSpace (s : Heap) : Prop := ∀ x ∈ s.regions, x.1 + x.2 ≤ 2 ^ 47

/-- Blocks of at least `k` bytes that lie one after the other from `x` on. -/
theorem length_mul_le {L : List Blk} {k x M : ℕ} (hL : (L.map Blk.addr).Pairwise (· < ·))
    (hsep : ∀ b ∈ L, ∀ c ∈ L, b.addr < c.addr → b.addr + b.size ≤ c.addr)
    (hsize : ∀ b ∈ L, k ≤ b.size) (hx : ∀ b ∈ L, x ≤ b.addr)
    (hM : ∀ b ∈ L, b.addr + b.size ≤ M) (hxM : x ≤ M) : x + L.length * k ≤ M := by
  induction L generalizing x with
  | nil => simpa using hxM
  | cons b L ih =>
    obtain ⟨hb, hL⟩ := List.pairwise_cons.mp hL
    have hstart : ∀ c ∈ L, b.addr + b.size ≤ c.addr := fun c hc =>
      hsep b List.mem_cons_self c (List.mem_cons_of_mem b hc) (hb c.addr (List.mem_map_of_mem hc))
    have hrest := ih hL
      (fun c hc d hd => hsep c (List.mem_cons_of_mem b hc) d (List.mem_cons_of_mem b hd))
      (fun c hc => hsize c (List.mem_cons_of_mem b hc)) hstart
      (fun c hc => hM c (List.mem_cons_of_mem b hc)) (hM b List.mem_cons_self)
    calc x + (b :: L).length * k = x + k + L.length * k := by
          rw [List.length_cons, Nat.succ_mul]
          omega
      _ ≤ b.addr + b.size + L.length * k :=
          Nat.add_le_add_right (Nat.add_le_add (hx b List.mem_cons_self)
            (hsize b List.mem_cons_self)) _
      _ ≤ M := hrest

theorem Ready.length_mapped_le (h : Ready r s P) (huser : s.UserSpace) :
    (P .mapped).length ≤ 2 ^ 30 := by
  have hbound : 0 + (P .mapped).length * size128K ≤ 2 ^ 47 := by
    refine length_mul_le (h.repr.list .mapped).sorted (fun b hb c hc hlt => ?_)
      (fun b hb => (h.mapped b hb).2.1.le) (fun b _ => Nat.zero_le _) (fun b hb => ?_)
      (Nat.zero_le _)
    · have := h.separate hb hc hlt.ne
      omega
    · exact huser b.region (h.regions.mem_iff.mpr
        (List.mem_cons_of_mem r (List.mem_map_of_mem hb)))
  simp only [size128K] at hbound
  omega

/-- The smallest blocks have 128 bytes. -/
theorem Lists.Tiling.length_poolList_le {base : ℕ} (ht : P.Tiling base) (hP : ∀ i, (P i).Nodup) :
    P.poolList.length ≤ 2 ^ 15 := by
  have hsum := ht.sum_poolList hP
  have hle : (P.poolList.map Blk.size).length • 128 ≤ (P.poolList.map Blk.size).sum := by
    apply List.card_nsmul_le_sum _ _
    intro n hn
    obtain ⟨b, hb, rfl⟩ := List.mem_map.mp hn
    have hpool := (Lists.mem_poolList ht.sized).mp hb
    exact Nat.le_of_dvd (ht.dyadic b hpool).pos (ht.dvd_128 hpool).1
  rw [hsum, List.length_map] at hle
  change P.poolList.length * 128 ≤ 32 * 131072 at hle
  omega

/-- In user space the `int` counter of the blocks is exact. -/
theorem Ready.num_allocated_blocks (h : Ready r s P) (hmapped : (P .mapped).length ≤ 2 ^ 30) :
    s._num_allocated_blocks = some (P.poolList.length + (P .mapped).length) := by
  have hpool := h.tiling.length_poolList_le fun i => (h.repr.list i).nodup.of_map _
  rw [h.repr.num_allocated_blocks, intToSize_of_lt (by omega)]

end Count

/-! ### Best fit -/

/-- The least order in the terms of the request. -/
theorem Lists.LeastOrder.of_isLeast {size j : ℕ} (hsmall : metadataSize + size ≤ size128K)
    (hj : IsLeast {l | size + metadataSize ≤ 128 * 2 ^ l} j) :
    Lists.LeastOrder (metadataSize + size) j := by
  have hmax : j ≤ maxOrder := hj.2 (show size + metadataSize ≤ 128 * 2 ^ maxOrder by
    rw [Nat.add_comm]
    exact hsmall)
  refine ⟨hmax, ?_, fun l hl => ?_⟩
  · have hfits : size + metadataSize ≤ 128 * 2 ^ j := hj.1
    rw [sizeAt_eq hmax]
    omega
  · have hnot : ¬ size + metadataSize ≤ 128 * 2 ^ l := fun hle => absurd (hj.2 hle) (not_le.mpr hl)
    rw [sizeAt_eq (hl.le.trans hmax)]
    omega

/-- **Best fit.** From every state whose pool is a tiling, a small request is refused, with the heap
as it was, exactly when there is no free block of the order `j` that fits or above. Otherwise it
takes the lowest free block `B` of the least such order `i`: the payload of a block of the order `j`
at its address is returned, one free block is left in each of the lists `j, …, i - 1`, nothing else
changes, and there are `i - j` blocks more: in user space the `int` that counts them does not
overflow. -/
theorem smalloc_best_fit {r : ℕ × ℕ} {s : Heap} {P : Lists} {os : Answers} {size j : ℕ}
    (h : Ready r s P) (hsize : 1 ≤ size) (hsmall : size + metadataSize ≤ size128K)
    (hj : IsLeast {l | size + metadataSize ≤ 128 * 2 ^ l} j) :
    (s.smalloc os size = some (0, s) ↔ ∀ l, j ≤ l → ∀ b ∈ P (.order l), b.isFree = false) ∧
    ∀ i B, IsLeast {l | j ≤ l ∧ ∃ b ∈ P (.order l), b.isFree = true} i →
      B ∈ P (.order i) → B.isFree = true →
      (∀ c ∈ P (.order i), c.isFree = true → B.addr ≤ c.addr) →
      ∃ t P', s.smalloc os size = some (B.payload, t) ∧ Ready r t P' ∧
        (∀ l c, c ∈ P' l ↔ (c ∈ P l ∧ c ≠ B) ∨
          (l = .order j ∧ c = ⟨B.addr, 128 * 2 ^ j, false⟩) ∨
          ∃ m, j ≤ m ∧ m < i ∧ l = .order m ∧ c = ⟨B.addr + 128 * 2 ^ m, 128 * 2 ^ m, true⟩) ∧
        SamePayloads P s t ∧
        (s.UserSpace → ∃ n, s._num_allocated_blocks = some n ∧
          t._num_allocated_blocks = some (n + (i - j))) := by
  rw [Nat.add_comm] at hsmall
  have hleast := Lists.LeastOrder.of_isLeast hsmall hj
  refine ⟨⟨h.no_free_of_null hsize hsmall hleast, h.smalloc_null hsize hsmall hleast⟩,
    fun i B hi hB hfree hlow => ?_⟩
  obtain ⟨t, heq, hready, hsame⟩ := h.smalloc_isLeast hsize hsmall hleast hi hB hfree hlow
  -- `i - j` splits lead from the order `i` to the order `j`
  have hin : i - (i - j) = j := by have := hi.1.1; omega
  have hi' : i ≤ maxOrder := (h.tiling.sized i B hB).1
  have hmapped : (P.take i (i - j) B) .mapped = P .mapped := Lists.take_mapped
  refine ⟨t, _, heq, hready, fun l c => ?_, hsame, fun huser => ?_⟩
  · rw [h.tiling.mem_take hB (Nat.sub_le i j), hin]
    refine or_congr (and_congr_right fun hc => ⟨?_, ?_⟩) (or_congr ?_ ?_)
    · rintro hne rfl
      exact hne (h.repr.once l (.order i) c hc c hB rfl) rfl
    · rintro hne rfl haddr
      exact hne (h.repr.eq_of_addr hc hB haddr).2
    · rw [sizeAt_eq hleast.1]
    · refine exists_congr fun m => and_congr_right fun hm => and_congr_right fun hmi => ?_
      rw [Lists.upperHalf, sizeAt_eq (hmi.le.trans hi')]
  · -- each split makes one block more
    have hcount := h.num_allocated_blocks (h.length_mapped_le huser)
    have hcount' := hready.num_allocated_blocks (by rw [hmapped]; exact h.length_mapped_le huser)
    rw [hmapped, Lists.length_poolList_take (Nat.sub_le i j) hi' hB
      (h.repr.list (.order i)).nodup] at hcount'
    refine ⟨_, hcount, ?_⟩
    rw [hcount']
    congr 1
    omega

/-- The pool of the first call: `smalloc(1)` splits its first block ten times. -/
theorem smalloc_best_fit_sample :
    ∃ s P t P' n, Ready sampleAnswers.sbrked s P ∧ Ready sampleAnswers.sbrked t P' ∧
      s.smalloc sampleAnswers 1 = some (262144 + metadataSize, t) ∧
      (⟨262144, 128, false⟩ : Blk) ∈ P' (.order 0) ∧
      s._num_allocated_blocks = some n ∧ t._num_allocated_blocks = some (n + 10) := by
  have hok : sampleAnswers.SbrkOk := ⟨rfl, by decide⟩
  obtain ⟨s, -, hready⟩ := Ready.initPool freshHeap_fresh hok
  have hmem : ∀ l c, c ∈ poolLists (poolBase sampleAnswers.sbrked) 32 l ↔ l = .order maxOrder ∧
      ∃ n < 32, c = ⟨262144 + n * size128K, size128K, true⟩ := fun l c => mem_poolLists
  have huser : s.UserSpace := by
    intro x hx
    obtain rfl := List.mem_singleton.mp (hready.regions.mem_iff.mp hx)
    decide
  have hj : IsLeast {l | 1 + metadataSize ≤ 128 * 2 ^ l} 0 := ⟨by decide, fun l _ => Nat.zero_le l⟩
  have hi : IsLeast {l | 0 ≤ l ∧ ∃ b ∈ poolLists (poolBase sampleAnswers.sbrked) 32 (.order l),
      b.isFree = true} 10 := by
    refine ⟨⟨Nat.zero_le _, _, (hmem _ _).mpr ⟨rfl, 0, by decide, rfl⟩, rfl⟩, ?_⟩
    rintro l ⟨-, b, hb, -⟩
    exact (Slot.order.inj ((hmem _ _).mp hb).1).ge
  obtain ⟨-, htake⟩ := @smalloc_best_fit _ s _ sampleAnswers 1 0 hready le_rfl (by decide) hj
  obtain ⟨t, P', heq, hready', hlists, -, hcount⟩ := htake 10 ⟨262144, size128K, true⟩ hi
    ((hmem _ _).mpr ⟨rfl, 0, by decide, rfl⟩) rfl fun c hc _ => by
      obtain ⟨-, m, -, rfl⟩ := (hmem _ _).mp hc
      exact Nat.le_add_right _ _
  obtain ⟨n, hn, hn'⟩ := hcount huser
  exact ⟨s, _, t, P', n, hready, hready', heq,
    (hlists _ _).mpr (Or.inr (Or.inl ⟨rfl, rfl⟩)), hn, hn'⟩

end OsHomework.Malloc3
