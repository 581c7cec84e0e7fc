import OsHomework.Malloc3.Ready

/-!
# The statistics of `malloc_3`

The counting loops of the lists sum in `size_t`, the functions `_num_…` over all lists in `int`, but
for `_num_free_bytes`. On lists whose blocks tile the arena the loops count what they should
(`Heap.Repr.allBlocksNum` and its siblings), and the sum over all lists is exact as long as it is
below `2 ^ 31`: from there on `_num_allocated_bytes` is negative, or has lost its upper bits
(`statistics_exact_iff`).
-/

namespace OsHomework.Malloc3

/-! ### Sums with a bounded accumulator -/

/-- Adding up modulo `n` some of the elements. -/
theorem foldl_add_mod {α : Type} (f : α → ℕ) (p : α → Bool) {n acc : ℕ} (hacc : acc < n)
    (L : List α) :
    L.foldl (fun sum b => if p b then (sum + f b) % n else sum) acc
      = (acc + ((L.filter p).map f).sum) % n := by
  induction L generalizing acc with
  | nil => exact (Nat.mod_eq_of_lt hacc).symm
  | cons b L ih =>
    rw [List.foldl_cons]
    by_cases hb : p b = true
    · have hmod : (acc + f b) % n < n := Nat.mod_lt _ (Nat.zero_lt_of_lt hacc)
      rw [if_pos hb, ih hmod]
      calc ((acc + f b) % n + ((L.filter p).map f).sum) % n
          = (acc + (f b + ((L.filter p).map f).sum)) % n := by rw [Nat.mod_add_mod, Nat.add_assoc]
        _ = (acc + (((b :: L).filter p).map f).sum) % n := by
          rw [List.filter_cons_of_pos hb, List.map_cons, List.sum_cons]
    · rw [if_neg hb, ih hacc, List.filter_cons_of_neg hb]

/-- Adding up modulo `n` all elements. -/
theorem foldl_add_mod_all {α : Type} (f : α → ℕ) {n : ℕ} (hn : 0 < n) (L : List α) :
    L.foldl (fun sum b => (sum + f b) % n) 0 = (L.map f).sum % n := by
  have := foldl_add_mod f (fun _ => true) hn L
  simpa using this

/-- Terms may be reduced before they are added up. -/
theorem sum_mod_of_dvd {α : Type} {f : α → ℕ} {m n : ℕ} (hmn : m ∣ n) {L : List α} :
    (L.map fun a => f a % n).sum % m = (L.map f).sum % m := by
  induction L with
  | nil => rfl
  | cons a L ih =>
    rw [List.map_cons, List.map_cons, List.sum_cons, List.sum_cons]
    calc (f a % n + (L.map fun a => f a % n).sum) % m
        = (f a % n % m + (L.map fun a => f a % n).sum % m) % m := Nat.add_mod ..
      _ = (f a % m + (L.map f).sum % m) % m := by rw [Nat.mod_mod_of_dvd _ hmn, ih]
      _ = (f a + (L.map f).sum) % m := (Nat.add_mod ..).symm

/-- A loop none of whose rounds fails. -/
theorem foldlM_some {α β : Type} {f : β → α → Option β} {g : β → α → β} {L : List α} {acc : β}
    (h : ∀ acc, ∀ a ∈ L, f acc a = some (g acc a)) : L.foldlM f acc = some (L.foldl g acc) := by
  induction L generalizing acc with
  | nil => rfl
  | cons a L ih =>
    rw [List.foldlM_cons, h acc a List.mem_cons_self, List.foldl_cons]
    exact ih fun acc b hb => h acc b (List.mem_cons_of_mem a hb)

/-! ### The loops over one list -/

/-- The bytes behind the header. -/
def Blk.dataSize (b : Blk) : ℕ := b.size - metadataSize

namespace Heap.Repr

variable {s : Heap} {P : Lists} (h : s.Repr P) (i : Slot)

include h

theorem size_lt {b : Blk} (hb : b ∈ P i) : b.size < wordLimit := by
  rw [← (h.node i b hb).size]
  exact (Mem.loadLE_lt s.mem _ 8).trans_eq (by decide)

theorem length_lt : (P i).length < wordLimit := by
  have := (h.list i).length_lt h.apart
  rwa [List.length_map] at this

theorem allBlocksNum : (s.list i).allBlocksNum s.mem = some (P i).length := by
  have hsum := foldl_add_mod_all (fun _ : Blk => 1) (show 0 < wordLimit by decide) (P i)
  have hones : ((P i).map fun _ => 1).sum = (P i).length := by simp
  rw [hones, Nat.mod_eq_of_lt (h.length_lt i)] at hsum
  rw [MDList.allBlocksNum, foldNodes_map (h.list i).chain (h.length_lt i) fun _ _ _ => rfl, hsum]

/-- The subtraction of the loop does not wrap. -/
theorem dataBytes_eq {b : Blk} (hb : b ∈ P i) (hsize : metadataSize ≤ b.size) :
    MDList.dataBytes (MD.size s.mem b.addr) = b.dataSize := by
  have hlt := h.size_lt i hb
  rw [(h.node i b hb).size, MDList.dataBytes, Blk.dataSize,
    show b.size + wordLimit - metadataSize = b.size - metadataSize + wordLimit by omega,
    Nat.add_mod_right]
  exact Nat.mod_eq_of_lt (by omega)

variable (hsize : ∀ b ∈ P i, metadataSize ≤ b.size)

include hsize

theorem allBlocksNumBytes :
    (s.list i).allBlocksNumBytes s.mem = some (((P i).map Blk.dataSize).sum % wordLimit) := by
  rw [MDList.allBlocksNumBytes, foldNodes_map (h.list i).chain (h.length_lt i)
    fun acc b hb => by rw [h.dataBytes_eq i hb (hsize b hb)]]
  rw [foldl_add_mod_all Blk.dataSize (by decide)]

theorem freeBlocksNumBytes :
    (s.list i).freeBlocksNumBytes s.mem
      = some ((((P i).filter Blk.isFree).map Blk.dataSize).sum % wordLimit) := by
  rw [MDList.freeBlocksNumBytes, foldNodes_map (h.list i).chain (h.length_lt i)
    fun acc b hb => by rw [h.dataBytes_eq i hb (hsize b hb), (h.node i b hb).isFree]]
  rw [foldl_add_mod Blk.dataSize Blk.isFree (by decide), Nat.zero_add]

end Heap.Repr

/-! ### All lists of the pool -/

namespace Lists

/-- The blocks of the pool, list after list. -/
def poolList (P : Lists) : List Blk := (List.range (maxOrder + 1)).flatMap fun k => P (.order k)

/-- The bytes behind the headers of all blocks. -/
def dataBytes (P : Lists) : ℕ := ((P.poolList ++ P .mapped).map Blk.dataSize).sum

variable {P : Lists} {base : ℕ}

theorem mem_poolList (h : P.Sized) {b : Blk} : b ∈ P.poolList ↔ b ∈ P.pool := by
  rw [poolList, List.mem_flatMap]
  constructor
  · rintro ⟨k, -, hb⟩
    exact ⟨k, hb⟩
  · rintro ⟨k, hb⟩
    exact ⟨k, List.mem_range.mpr (Nat.lt_succ_iff.mpr (h k b hb).1), hb⟩

/-- A sum over the pool, list by list. -/
theorem sum_poolList (P : Lists) (f : List Blk → ℕ) (hf : ∀ L L', f (L ++ L') = f L + f L')
    (hnil : f [] = 0) :
    f P.poolList = ((List.range (maxOrder + 1)).map fun k => f (P (.order k))).sum := by
  rw [poolList]
  generalize List.range (maxOrder + 1) = ks
  induction ks with
  | nil => exact hnil
  | cons k ks ih => rw [List.flatMap_cons, hf, List.map_cons, List.sum_cons, ih]

theorem Tiling.nodup_poolList (ht : P.Tiling base) (hP : ∀ i, (P i).Nodup) : P.poolList.Nodup := by
  rw [poolList, List.nodup_flatMap]
  refine ⟨fun k _ => hP _, List.nodup_range.imp ?_⟩
  intro j k hjk b hb hc
  exact hjk (ht.eq_of_addr hb hc rfl).1

/-- The pool blocks make up the arena. -/
theorem Tiling.sum_poolList (ht : P.Tiling base) (hP : ∀ i, (P i).Nodup) :
    (P.poolList.map Blk.size).sum = 32 * size128K := by
  have htiles : Tiles Blk.range {b | b ∈ P.poolList} (Set.Ico base (base + 32 * size128K)) := by
    have hpool : {b | b ∈ P.poolList} = P.pool := Set.ext fun b => mem_poolList ht.sized
    rw [hpool]
    exact ht.tiles
  rw [htiles.sum_size (ht.nodup_poolList hP), Nat.add_sub_cancel_left]

end Lists

/-- A sum over `mdListArr`, each list counted by `f`. -/
theorem Heap.sumLists_eq {s : Heap} {count : MDList → Mem → Option ℕ} {f : ℕ → ℕ} {n : ℕ}
    (hn : 0 < n) (hcount : ∀ k ≤ maxOrder, count (s.mdListArr k) s.mem = some (f k)) :
    s.sumLists count (fun sum m => (sum + m) % n)
      = some (((List.range (maxOrder + 1)).map f).sum % n) := by
  have hround : ∀ sum, ∀ k ∈ List.range (maxOrder + 1),
      (count (s.mdListArr k) s.mem).map (fun m => (sum + m) % n) = some ((sum + f k) % n) := by
    intro sum k hk
    rw [hcount k (Nat.lt_succ_iff.mp (List.mem_range.mp hk))]
    rfl
  rw [Heap.sumLists, foldlM_some hround, foldl_add_mod_all f hn]

/-- Both counters of blocks are `int`. -/
theorem Heap.Repr.num_allocated_blocks {s : Heap} {P : Lists} (h : s.Repr P) :
    s._num_allocated_blocks
      = some (Heap.intToSize ((P.poolList.length + (P .mapped).length) % 2 ^ 32)) := by
  have hsum : s.sumLists MDList.allBlocksNum Heap.addToInt
      = some (((List.range (maxOrder + 1)).map fun k => (P (.order k)).length).sum % 2 ^ 32) :=
    Heap.sumLists_eq (by decide) fun k _ => h.allBlocksNum (.order k)
  rw [← P.sum_poolList List.length (fun _ _ => List.length_append) rfl] at hsum
  have hmapped : s.mappedList.allBlocksNum s.mem = some (P .mapped).length :=
    h.allBlocksNum .mapped
  rw [Heap._num_allocated_blocks, hsum, hmapped]
  show some (Heap.intToSize ((P.poolList.length % 2 ^ 32 + (P .mapped).length) % 2 ^ 32)) = _
  rw [Nat.mod_add_mod]

/-! ### The statistics -/

/-- What the statistics should say of the lists `P`. -/
structure StatsExact (s : Heap) (P : Lists) : Prop where
  blocks : s._num_allocated_blocks = some (P.poolList.length + (P .mapped).length)
  bytes : ∃ a m, s._num_allocated_bytes = some a ∧ s._num_meta_data_bytes = some m ∧
    a + m = 32 * size128K + ((P .mapped).map Blk.size).sum
  free : s._num_free_bytes = some ((P.poolList.filter Blk.isFree).map Blk.dataSize).sum

/-- The heap holds lists whose pool blocks tile the arena and whose mapped blocks have a size that
`smalloc` accepts; all of it lies in the address space. -/
structure Countable (s : Heap) (P : Lists) (base : ℕ) : Prop where
  repr : s.Repr P
  tiling : P.Tiling base
  mapped : ∀ b ∈ P .mapped, metadataSize < b.size ∧ b.size ≤ metadataSize + 100000000
  lt : 32 * size128K + ((P .mapped).map Blk.size).sum < wordLimit

namespace Countable

variable {s : Heap} {P : Lists} {base : ℕ} (h : Countable s P base)

include h

theorem nodup (i : Slot) : (P i).Nodup := (h.repr.list i).nodup.of_map _

theorem metadataSize_lt {i : Slot} {b : Blk} (hb : b ∈ P i) : metadataSize < b.size := by
  cases i with
  | mapped => exact (h.mapped b hb).1
  | order k => exact h.tiling.metadataSize_lt ⟨k, hb⟩

/-- The blocks in any of the lists have room for a payload. -/
theorem metadataSize_lt_of_mem {b : Blk} (hb : b ∈ P.poolList ++ P .mapped) :
    metadataSize < b.size := by
  obtain hb | hb := List.mem_append.mp hb
  · obtain ⟨k, hb⟩ := (Lists.mem_poolList h.tiling.sized).mp hb
    exact h.metadataSize_lt hb
  · exact h.metadataSize_lt hb

/-- Every block, with its header and what is behind it. -/
theorem sum_dataSize : P.dataBytes + metadataSize * (P.poolList.length + (P .mapped).length)
    = 32 * size128K + ((P .mapped).map Blk.size).sum := by
  set L := P.poolList ++ P .mapped with hL
  have hsize : ∀ b ∈ L, b.dataSize + metadataSize = b.size := fun b hb =>
    Nat.sub_add_cancel (h.metadataSize_lt_of_mem hb).le
  calc P.dataBytes + metadataSize * (P.poolList.length + (P .mapped).length)
      = (L.map Blk.dataSize).sum + (L.map fun _ => metadataSize).sum := by
        rw [List.map_const', List.sum_replicate, Nat.nsmul_eq_mul, Nat.mul_comm, hL,
          List.length_append, Lists.dataBytes]
    _ = (L.map fun b => b.dataSize + metadataSize).sum := (List.sum_map_add ..).symm
    _ = (L.map Blk.size).sum := congrArg List.sum (List.map_congr_left hsize)
    _ = 32 * size128K + ((P .mapped).map Blk.size).sum := by
        rw [hL, List.map_append, List.sum_append, h.tiling.sum_poolList h.nodup]

theorem length_le : P.poolList.length + (P .mapped).length ≤ P.dataBytes := by
  -- every block has a byte of data
  have hone : ∀ n ∈ (P.poolList ++ P .mapped).map Blk.dataSize, 1 ≤ n := by
    intro n hn
    obtain ⟨b, hb, rfl⟩ := List.mem_map.mp hn
    exact Nat.sub_pos_of_lt (h.metadataSize_lt_of_mem hb)
  have hle := List.length_le_sum_of_one_le _ hone
  rwa [List.length_map, List.length_append] at hle

/-- No mapped block is larger than `smalloc` accepts. -/
theorem dataBytes_le : P.dataBytes ≤ 32 * size128K + (P .mapped).length * 100000000 := by
  have hle : ((P .mapped).map Blk.dataSize).sum ≤ (P .mapped).length * 100000000 := by
    -- `smalloc` refuses larger requests
    have hbound : ∀ n ∈ (P .mapped).map Blk.dataSize, n ≤ 100000000 := by
      intro n hn
      obtain ⟨b, hb, rfl⟩ := List.mem_map.mp hn
      exact Nat.sub_le_iff_le_add'.mpr (h.mapped b hb).2
    have hsum := List.sum_le_card_nsmul _ _ hbound
    rwa [List.length_map, Nat.nsmul_eq_mul] at hsum
  -- the data of the pool are a part of the arena
  have hpool : (P.poolList.map Blk.dataSize).sum ≤ (P.poolList.map Blk.size).sum :=
    List.sum_le_sum fun b _ => Nat.sub_le _ _
  rw [h.tiling.sum_poolList h.nodup] at hpool
  rw [Lists.dataBytes, List.map_append, List.sum_append]
  omega

theorem num_allocated_blocks :
    s._num_allocated_blocks
      = some (Heap.intToSize ((P.poolList.length + (P .mapped).length) % 2 ^ 32)) :=
  h.repr.num_allocated_blocks

theorem num_allocated_bytes :
    s._num_allocated_bytes = some (Heap.intToSize (P.dataBytes % 2 ^ 32)) := by
  -- each list is summed up as a `size_t`, and the lists as an `int`
  have hword : 2 ^ 32 ∣ wordLimit := by decide
  have hsize : ∀ i, ∀ b ∈ P i, metadataSize ≤ b.size := fun i b hb => (h.metadataSize_lt hb).le
  have hsum : s.sumLists MDList.allBlocksNumBytes Heap.addToInt
      = some (((List.range (maxOrder + 1)).map
          fun k => ((P (.order k)).map Blk.dataSize).sum % wordLimit).sum % 2 ^ 32) :=
    Heap.sumLists_eq (by decide) fun k _ => h.repr.allBlocksNumBytes (.order k) (hsize _)
  have hpool := P.sum_poolList (fun L => (L.map Blk.dataSize).sum)
    (fun L L' => by rw [List.map_append, List.sum_append]) rfl
  rw [sum_mod_of_dvd hword, ← hpool] at hsum
  have hmapped : s.mappedList.allBlocksNumBytes s.mem
      = some (((P .mapped).map Blk.dataSize).sum % wordLimit) :=
    h.repr.allBlocksNumBytes .mapped (hsize _)
  rw [Heap._num_allocated_bytes, hsum, hmapped]
  show some (Heap.intToSize (((P.poolList.map Blk.dataSize).sum % 2 ^ 32
    + ((P .mapped).map Blk.dataSize).sum % wordLimit) % 2 ^ 32)) = _
  -- what `size_t` loses, `int` has lost already
  rw [Nat.mod_add_mod, ← Nat.add_mod_mod, Nat.mod_mod_of_dvd _ hword, Nat.add_mod_mod,
    ← List.sum_append, ← List.map_append]
  rfl

theorem num_free_bytes :
    s._num_free_bytes = some ((P.poolList.filter Blk.isFree).map Blk.dataSize).sum := by
  have hsize : ∀ i, ∀ b ∈ P i, metadataSize ≤ b.size := fun i b hb => (h.metadataSize_lt hb).le
  have hsum : s.sumLists MDList.freeBlocksNumBytes Heap.addToSize
      = some (((List.range (maxOrder + 1)).map
          fun k => (((P (.order k)).filter Blk.isFree).map Blk.dataSize).sum % wordLimit).sum
            % wordLimit) :=
    Heap.sumLists_eq (by decide) fun k _ => h.repr.freeBlocksNumBytes (.order k) (hsize _)
  have hpool := P.sum_poolList (fun L => ((L.filter Blk.isFree).map Blk.dataSize).sum)
    (fun L L' => by rw [List.filter_append, List.map_append, List.sum_append]) rfl
  -- the free blocks are a part of the arena
  have hle : ((P.poolList.filter Blk.isFree).map Blk.dataSize).sum ≤ 32 * size128K :=
    calc ((P.poolList.filter Blk.isFree).map Blk.dataSize).sum
        ≤ (P.poolList.map Blk.dataSize).sum :=
          ((List.filter_sublist).map _).sum_le_sum fun _ _ => Nat.zero_le _
      _ ≤ (P.poolList.map Blk.size).sum := List.sum_le_sum fun b _ => Nat.sub_le _ _
      _ = 32 * size128K := h.tiling.sum_poolList h.nodup
  rw [Heap._num_free_bytes, hsum, sum_mod_of_dvd dvd_rfl, ← hpool,
    Nat.mod_eq_of_lt (hle.trans_lt (by decide))]

end Countable

theorem intToSize_of_lt {n : ℕ} (hn : n < 2 ^ 31) : Heap.intToSize (n % 2 ^ 32) = n := by
  rw [Nat.mod_eq_of_lt (by omega), Heap.intToSize, if_pos hn]

/-- An `int` is exact only for numbers that are small, or close to the end of `size_t`. -/
theorem lt_of_intToSize {n : ℕ} (h : Heap.intToSize (n % 2 ^ 32) = n)
    (hn : n < wordLimit - 2 ^ 31) :
    n < 2 ^ 31 := by
  have hword : wordLimit = 2 ^ 64 := rfl
  unfold Heap.intToSize at h
  split_ifs at h <;> omega

section Exact

variable {s : Heap} {P : Lists} {base : ℕ}

theorem Countable.exact (h : Countable s P base) (hlt : P.dataBytes < 2 ^ 31) : StatsExact s P := by
  have hlen := h.length_le
  have hblocks := h.num_allocated_blocks
  have hbytes := h.num_allocated_bytes
  rw [intToSize_of_lt (hlen.trans_lt hlt)] at hblocks
  rw [intToSize_of_lt hlt] at hbytes
  refine ⟨hblocks, ⟨_, _, hbytes, by rw [Heap._num_meta_data_bytes, hblocks]; rfl, ?_⟩,
    h.num_free_bytes⟩
  -- the product for the headers does not wrap
  have hmeta : (P.poolList.length + (P .mapped).length) * metadataSize < wordLimit := by
    simp only [metadataSize, wordLimit]
    omega
  rw [Nat.mod_eq_of_lt hmeta, Nat.mul_comm]
  exact h.sum_dataSize

theorem Countable.lt_of_exact (h : Countable s P base) (hexact : StatsExact s P) :
    P.dataBytes < 2 ^ 31 := by
  have hsum := h.sum_dataSize
  have hword := h.lt
  -- the number of blocks is exact, hence small
  have hblocks : P.poolList.length + (P .mapped).length < 2 ^ 31 := by
    have heq := h.num_allocated_blocks.symm.trans hexact.blocks
    apply lt_of_intToSize (Option.some.inj heq)
    simp only [metadataSize, wordLimit] at hsum hword ⊢
    omega
  -- so that the bytes have to be exact as well
  obtain ⟨a, m, ha, hm, ham⟩ := hexact.bytes
  rw [Heap._num_meta_data_bytes, hexact.blocks] at hm
  have hm' : (P.poolList.length + (P .mapped).length) * metadataSize % wordLimit = m :=
    Option.some.inj hm
  have ha' := Option.some.inj (h.num_allocated_bytes.symm.trans ha)
  have hle := h.dataBytes_le
  refine lt_of_intToSize ?_ ?_
  · rw [Nat.mod_eq_of_lt (by simp only [metadataSize, wordLimit]; omega), Nat.mul_comm] at hm'
    omega
  · simp only [size128K, wordLimit] at hle ⊢
    omega

end Exact

/-- **The statistics are exact** if and only if the bytes behind the headers, of the pool and of the
mapped blocks together, are fewer than `2 ^ 31`. -/
theorem statistics_exact_iff {s : Heap} {P : Lists} {base : ℕ} (h : Countable s P base) :
    StatsExact s P ↔ P.dataBytes < 2 ^ 31 :=
  ⟨h.lt_of_exact, h.exact⟩

/-- A state the allocator can be in. -/
theorem Ready.countable {r : ℕ × ℕ} {s : Heap} {P : Lists} (h : Ready r s P)
    (hmapped : ∀ b ∈ P .mapped, b.size ≤ metadataSize + 100000000)
    (hlt : 32 * size128K + ((P .mapped).map Blk.size).sum < wordLimit) :
    Countable s P (poolBase r) :=
  ⟨h.repr, h.tiling, fun b hb => ⟨h.metadataSize_lt hb, hmapped b hb⟩, hlt⟩

/-- The theorem at a pool with a block that has been split, and a mapped block beside it. -/
theorem statistics_exact_iff_sample :
    ∃ s P base, P .mapped ≠ [] ∧ Countable s P base ∧ StatsExact s P := by
  obtain ⟨-, s, -, -, -, hready⟩ := exists_split_mapped
  set P := splitLists.insert .mapped ⟨2 ^ 33, 200048, false⟩
  have hmapped : P .mapped = [⟨2 ^ 33, 200048, false⟩] := rfl
  have hvalid : ∀ b ∈ P .mapped, b.size ≤ metadataSize + 100000000 := by
    rw [hmapped]
    decide
  have hcount := hready.countable hvalid (by decide)
  refine ⟨s, P, _, List.cons_ne_nil _ _, hcount, (statistics_exact_iff hcount).mpr ?_⟩
  exact hcount.dataBytes_le.trans_lt (by decide)

/-- What `mmap` answers when it grants one region after the other. -/
def mappingAnswers (n : ℕ) : Answers := ⟨131072, 131072, 2 ^ 33 + n * 2 ^ 27⟩

/-- A program that calls `smalloc(0)` and then `smalloc(100000000)` again and again. -/
theorem exists_mapped_blocks (n : ℕ) (hn : n ≤ 22) :
    ∃ t P, client.Reachable t ∧ Ready sampleAnswers.sbrked t.heap P ∧
      (P .mapped).length = n ∧
      ∀ b ∈ P .mapped, b.size = 100000048 ∧ b.addr + b.size ≤ 2 ^ 33 + n * 2 ^ 27 := by
  induction n with
  | zero =>
    have hserved : freshHeap.Served sampleAnswers 0 := sampleAnswers_served (by decide)
    obtain ⟨heap, heq, hready⟩ := freshHeap_fresh.smalloc hserved
    have hinit : client.init ⟨freshHeap, ∅⟩ := ⟨freshHeap_fresh, rfl⟩
    refine ⟨_, _, (System.Reachable.of_init hinit).tail (Step.call (c := .smalloc sampleAnswers 0)
      (Or.inl rfl) (fun _ _ hc => by cases hc; exact hserved) heq), hready, rfl, ?_⟩
    exact fun b hb => absurd hb List.not_mem_nil
  | succ n ih =>
    obtain ⟨t, P, hreach, hready, hlen, hmapped⟩ := ih (by omega)
    -- the `n`-th mapping lies above all before it
    have hok : (mappingAnswers n).MmapOk 100000048 t.heap.regions := by
      refine ⟨by simp only [mappingAnswers]; omega, ?_, fun x hx => ?_⟩
      · simp only [mappingAnswers, wordLimit]
        omega
      · obtain rfl | hx := List.mem_cons.mp (hready.regions.mem_iff.mp hx)
        · right
          show 131072 + (32 * size128K - 131072 % size128K + size128K) ≤ 2 ^ 33 + n * 2 ^ 27
          exact le_trans (by decide) (Nat.le_add_right (2 ^ 33) _)
        · obtain ⟨b, hb, rfl⟩ := List.mem_map.mp hx
          exact Or.inr (hmapped b hb).2
    have hserved : t.heap.Served (mappingAnswers n) 100000000 := by
      refine ⟨fun hfirst => absurd (hready.firstMalloc.symm.trans hfirst) Bool.noConfusion,
        fun _ _ => ?_⟩
      rw [hready.firstMalloc, if_neg Bool.noConfusion]
      exact hok
    obtain ⟨heap, heq, hready'⟩ := hready.smalloc hserved
    have hlists : P.smalloc (mappingAnswers n) 100000000 =
      ((mappingAnswers n).mmapped + metadataSize,
        P.insert .mapped ⟨(mappingAnswers n).mmapped, 100000048, false⟩) := rfl
    rw [hlists] at heq hready'
    dsimp only at hready'
    refine ⟨_, _, hreach.tail (Step.call (c := .smalloc (mappingAnswers n) 100000000)
      (Or.inl rfl) (fun _ _ hc => by cases hc; exact hserved) heq), hready', ?_, fun b hb => ?_⟩
    · have hins : P.insert .mapped ⟨(mappingAnswers n).mmapped, 100000048, false⟩ .mapped
          = (P .mapped).orderedInsert (fun x y => x.addr < y.addr)
            ⟨(mappingAnswers n).mmapped, 100000048, false⟩ := Function.update_self ..
      rw [hins, List.orderedInsert_length, hlen]
    · obtain ⟨-, rfl⟩ | hb := Lists.mem_insert.mp hb
      · refine ⟨rfl, ?_⟩
        simp only [mappingAnswers]
        omega
      · obtain ⟨h1, h2⟩ := hmapped b hb
        exact ⟨h1, h2.trans (by omega)⟩

/-- **The statistics are not always exact**: after 22 calls of `smalloc(100000000)` the bytes no
longer fit in an `int`. -/
theorem exists_inexact_statistics :
    ∃ t P base, client.Reachable t ∧ Countable t.heap P base ∧ ¬ StatsExact t.heap P := by
  obtain ⟨t, P, hreach, hready, hlen, hmapped⟩ := exists_mapped_blocks 22 le_rfl
  -- all mapped blocks are of one size
  have hconst : ∀ f : Blk → ℕ, ∀ c, (∀ b ∈ P .mapped, f b = c) →
      ((P .mapped).map f).sum = 22 * c := by
    intro f c hf
    rw [List.map_congr_left hf, List.map_const', List.sum_replicate, hlen]
    rfl
  have hsizes := hconst Blk.size 100000048 fun b hb => (hmapped b hb).1
  have hdata := hconst Blk.dataSize 100000000 fun b hb => by
    rw [Blk.dataSize, (hmapped b hb).1]; rfl
  have hcount := hready.countable (fun b hb => by rw [(hmapped b hb).1]; decide)
    (by rw [hsizes]; decide)
  refine ⟨t, P, _, hreach, hcount, fun hexact => ?_⟩
  have hlt := hcount.lt_of_exact hexact
  rw [Lists.dataBytes, List.map_append, List.sum_append, hdata] at hlt
  omega

end OsHomework.Malloc3
