import OsHomework.Malloc2.Paths
import OsHomework.Malloc3.Chains

/-!
# What the two allocators have in common

`scalloc` checks its limit on a product that `size_t` has reduced modulo `2 ^ 64`, in `malloc_2` and
in `malloc_3` alike. `scalloc_exact_iff` says for which arguments no block that is too small can
come out.

`srealloc` copies too much whenever it moves a block: `malloc_2` copies as many bytes as the new
block is to have, `malloc_3` as many as the old block has with its header. `srealloc_reads_beyond`
says that no move stays inside what the client owned.
-/

namespace OsHomework

/-! ### `scalloc` in `malloc_2` -/

namespace Malloc2

/-- Whenever `scalloc(num, size)` returns a block, the product is within the limit, the block holds
that many bytes, and they are zero. -/
def ScallocExact (num size : ℕ) : Prop :=
  ∀ (s : Heap) bs outcome q t, s.Repr bs → s.scalloc outcome num size = some (q, t) → q ≠ 0 →
    (1 ≤ num * size ∧ num * size ≤ 100000000) ∧
    (∃ bs', t.Repr bs' ∧ ∃ b ∈ bs', b.payload = q ∧ num * size ≤ b.size) ∧
    ∀ i < num * size, t.mem (q + i) = 0

variable {num size : ℕ}

theorem scallocExact_of_lt (hlt : num * size < wordLimit) : ScallocExact num size := by
  intro s bs outcome q t h heq hq
  have hargs : 1 ≤ num ∧ 1 ≤ size := by
    by_contra hzero
    rw [Heap.scalloc_eq_allocate, if_pos (by omega)] at heq
    exact hq (congrArg Prod.fst (Option.some.inj heq)).symm
  have hmax : num * size ≤ maxRequest := by
    by_contra hbig
    rw [Heap.scalloc_eq_allocate, if_neg (by omega), Nat.mul_comm size num, Nat.mod_eq_of_lt hlt,
      if_pos (not_le.mp hbig)] at heq
    exact hq (congrArg Prod.fst (Option.some.inj heq)).symm
  -- neither check has refused, so that `smalloc` is called with the product
  have hpos : 1 ≤ num * size := Nat.mul_pos hargs.1 hargs.2
  obtain ⟨p, t₁, bs₁, hsmalloc, halloc, -⟩ := h.smalloc_firstFit outcome hpos hmax
  rw [h.scalloc_eq hargs.1 hargs.2 hlt, hsmalloc] at heq
  obtain ⟨rfl, rfl⟩ := Prod.ext_iff.mp (Option.some.inj heq)
  obtain ⟨b, hb, rfl, -, hfits, -⟩ := halloc.exists_block h hq
  dsimp only
  rw [if_neg hq]
  refine ⟨⟨hpos, hmax⟩, ⟨bs₁, (halloc.repr h).memset hb hfits, b, hb, rfl, hfits⟩, fun i hi => ?_⟩
  exact if_pos ⟨Nat.le_add_right _ _, Nat.add_lt_add_left hi _⟩

/-- A product that is still too large after its reduction is refused. -/
theorem scallocExact_of_refused (hbig : 100000000 < num * size % wordLimit) :
    ScallocExact num size := by
  intro s bs outcome q t _ heq hq
  rw [Heap.scalloc_eq_allocate, Nat.mul_comm size num] at heq
  rw [if_pos (show maxRequest < num * size % wordLimit from hbig), ite_self] at heq
  exact absurd (congrArg Prod.fst (Option.some.inj heq)).symm hq

/-- **`scalloc` of `malloc_2`** is exact if and only if the product is not reduced, or is
refused. -/
theorem scallocExact_iff :
    ScallocExact num size ↔ num * size < wordLimit ∨ 100000000 < num * size % wordLimit := by
  refine ⟨fun hexact => ?_, fun hcond => hcond.elim scallocExact_of_lt scallocExact_of_refused⟩
  by_contra hcond
  push Not at hcond
  obtain ⟨hge, hsmall⟩ := hcond
  have hargs : ¬ (size = 0 ∨ num = 0) := by
    rintro (rfl | rfl)
    · simp [wordLimit] at hge
    · simp [wordLimit] at hge
  -- at program start the heap grows, by a block for the reduced product
  have hrepr : freshHeap.Repr [] := .fresh freshHeap_fresh
  have hlt : num * size % wordLimit < wordLimit := Nat.mod_lt _ (by decide)
  obtain ⟨q, t, -, heq, -, hfit⟩ := hrepr.allocate_firstFit (some 0) hlt
  have hq : q ≠ 0 := by
    rcases hfit with ⟨b, hb, -⟩ | ⟨-, ⟨hsbrk, -⟩ | ⟨gap, -, rfl, -⟩⟩
    · exact absurd hb List.not_mem_nil
    · -- there is room for a block of this size
      have hroom : freshHeap.brk + 0 + (num * size % wordLimit + metadataSize) < wordLimit := by
        have hword : wordLimit = 2 ^ 64 := rfl
        simp only [freshHeap, metadataSize]
        omega
      rw [Heap.sbrk, if_pos hroom] at hsbrk
      exact absurd hsbrk (Option.some_ne_none _)
    · exact Nat.succ_ne_zero _
  have hscalloc : freshHeap.scalloc (some 0) num size
      = some (q, t.memset q (num * size % wordLimit)) := by
    rw [Heap.scalloc_eq_allocate, if_neg hargs, Nat.mul_comm size num,
      if_neg (show ¬ maxRequest < num * size % wordLimit from not_lt.mpr hsmall),
      hrepr.allocate_initBlock hlt, heq, Option.map_some, if_neg hq]
  -- a block has come out, although the product is above the limit
  have hlimit := (hexact freshHeap [] (some 0) q _ hrepr hscalloc hq).1.2
  have hword : wordLimit = 2 ^ 64 := rfl
  omega

end Malloc2

/-! ### `scalloc` in `malloc_3` -/

namespace Malloc3

/-- The states of the allocator: before the first `smalloc`, and at work. -/
def Heap.WellFormed (s : Heap) : Prop := s.Fresh ∨ ∃ r P, Ready r s P

/-- Whenever `scalloc(num, size)` returns a block, on a system whose calls succeed, the product is
within the limit, the block holds that many bytes behind its header, and they are zero. -/
def ScallocExact (num size : ℕ) : Prop :=
  ∀ (s : Heap) os q t, s.WellFormed → (Call.scalloc os num size).Served s →
    s.scalloc os num size = some (q, t) → q ≠ 0 →
    (1 ≤ num * size ∧ num * size ≤ 100000000) ∧
    (∃ r P, Ready r t P ∧ ∃ i, ∃ b ∈ P i, b.payload = q ∧ num * size + metadataSize ≤ b.size) ∧
    ∀ i < num * size, t.mem (q + i) = 0

variable {s t : Heap} {os : Answers} {num size q : ℕ}

/-- A block that `smalloc` returns. -/
theorem Heap.WellFormed.smalloc_block (h : s.WellFormed) (hserved : s.Served os size)
    (heq : s.smalloc os size = some (q, t)) (hq : q ≠ 0) :
    ∃ r P, Ready r t P ∧ ∃ i, ∃ b ∈ P i, b.payload = q ∧ metadataSize + size ≤ b.size := by
  have hblock : ∀ {P : Lists} {base : ℕ} {r t'}, P.Tiling base →
      s.smalloc os size = some ((P.smalloc os size).1, t') → Ready r t' (P.smalloc os size).2 →
      ∃ r P, Ready r t P ∧ ∃ i, ∃ b ∈ P i, b.payload = q ∧ metadataSize + size ≤ b.size := by
    intro P base r t' ht heq' hready
    cases heq.symm.trans heq'
    exact ⟨r, _, hready, (smalloc_allocates P os size).exists_block ht hq⟩
  rcases h with hfresh | ⟨r, P, hready⟩
  · obtain ⟨t', heq', hready⟩ := hfresh.smalloc hserved
    exact hblock (Lists.tiling_poolLists (poolBase_dvd _)) heq' hready
  · obtain ⟨t', heq', hready'⟩ := hready.smalloc hserved
    exact hblock hready.tiling heq' hready'

/-- What `scalloc` does with a product that it does not refuse. -/
theorem Heap.scalloc_eq (hargs : ¬ (size = 0 ∨ num = 0))
    (hmax : ¬ 100000000 < num * size % wordLimit) :
    s.scalloc os num size = (s.smalloc os (num * size % wordLimit)).map fun x =>
      (x.1, if x.1 = 0 then x.2 else x.2.setMem (x.2.mem.fill x.1 (num * size % wordLimit) 0)) := by
  rw [Heap.scalloc, if_neg hargs, Nat.mul_comm size num, if_neg hmax]
  cases s.smalloc os (num * size % wordLimit) with
  | none => rfl
  | some x =>
    simp only [Option.bind_eq_bind, Option.bind_some, Option.map_some, Option.pure_def]
    split_ifs with h0
    · rw [h0]
    · rfl

theorem Call.request_scalloc (hargs : ¬ (size = 0 ∨ num = 0))
    (hmax : ¬ 100000000 < num * size % wordLimit) :
    (Call.scalloc os num size).request = some (os, num * size % wordLimit) := by
  rw [Call.request, Nat.mul_comm size num, if_neg fun hbad => (or_assoc.mpr hbad).elim hargs hmax]

theorem scallocExact_of_lt (hlt : num * size < wordLimit) : ScallocExact num size := by
  intro s os q t h hserved heq hq
  have hargs : ¬ (size = 0 ∨ num = 0) := by
    intro hzero
    rw [Heap.scalloc, if_pos hzero] at heq
    exact hq (congrArg Prod.fst (Option.some.inj heq)).symm
  have hmax : ¬ 100000000 < num * size % wordLimit := by
    intro hbig
    rw [Heap.scalloc, if_neg hargs, Nat.mul_comm size num, if_pos hbig] at heq
    exact hq (congrArg Prod.fst (Option.some.inj heq)).symm
  -- the system answers the call of `smalloc` inside
  have hserved' := hserved _ _ (Call.request_scalloc hargs hmax)
  rw [Heap.scalloc_eq hargs hmax] at heq
  rw [Nat.mod_eq_of_lt hlt] at heq hserved' hmax
  obtain ⟨⟨q', t'⟩, hsmalloc, hx⟩ := Option.map_eq_some_iff.mp heq
  obtain ⟨rfl, rfl⟩ := Prod.ext_iff.mp hx
  obtain ⟨r, P, hready, i, b, hb, rfl, hfits⟩ := h.smalloc_block hserved' hsmalloc hq
  dsimp only at hq ⊢
  rw [if_neg hq]
  refine ⟨⟨Nat.mul_pos (by omega) (by omega), not_lt.mp hmax⟩,
    ⟨r, P, hready.of_payload hb fun x hx => Mem.fill_apply_out ?_, i, b, hb, rfl, ?_⟩,
      fun j hj => ?_⟩
  · rw [Blk.payload] at hx ⊢
    omega
  · rw [Nat.add_comm]
    exact hfits
  · exact if_pos ⟨Nat.le_add_right _ _, Nat.add_lt_add_left hj _⟩

/-- `scalloc` itself refuses what is too large, `smalloc` refuses `0`. -/
theorem scallocExact_of_refused
    (hbad : 100000000 < num * size % wordLimit ∨ num * size % wordLimit = 0) :
    ScallocExact num size := by
  intro s os q t _ _ heq hq
  by_cases hargs : size = 0 ∨ num = 0
  · rw [Heap.scalloc, if_pos hargs] at heq
    exact absurd (congrArg Prod.fst (Option.some.inj heq)).symm hq
  rcases hbad with hbig | hzero
  · rw [Heap.scalloc, if_neg hargs, Nat.mul_comm size num, if_pos hbig] at heq
    exact absurd (congrArg Prod.fst (Option.some.inj heq)).symm hq
  · rw [Heap.scalloc_eq hargs (by omega), hzero] at heq
    obtain ⟨x, hsmalloc, hx⟩ := Option.map_eq_some_iff.mp heq
    -- `smalloc(0)` returns null, whatever the pool is
    have hnull : x.1 = 0 := by
      rw [Heap.smalloc] at hsmalloc
      simp only [show invalidSize 0 = true from rfl, if_true] at hsmalloc
      split_ifs at hsmalloc <;>
      · obtain ⟨s', -, hx'⟩ := Option.bind_eq_some_iff.mp hsmalloc
        exact (congrArg Prod.fst (Option.some.inj hx')).symm
    exact absurd ((congrArg Prod.fst hx).symm.trans hnull) hq

/-- On the pool of the first call every size within the limit is served. -/
theorem exists_smalloc {n : ℕ} (hpos : 1 ≤ n) (hmax : n ≤ 100000000) :
    ∃ (s : Heap) (os : Answers) (q : ℕ) (t : Heap), s.WellFormed ∧ s.Served os n ∧
      s.smalloc os n = some (q, t) ∧ q ≠ 0 := by
  have hok : (mappingAnswers 0).SbrkOk := ⟨rfl, by decide⟩
  obtain ⟨s, -, hready⟩ := Ready.initPool freshHeap_fresh hok
  have hserved : s.Served (mappingAnswers 0) n := by
    refine ⟨fun hfirst => absurd (hready.firstMalloc.symm.trans hfirst) Bool.noConfusion,
      fun _ _ => ?_⟩
    have hword : wordLimit = 2 ^ 64 := rfl
    rw [hready.firstMalloc, if_neg Bool.noConfusion]
    refine ⟨by decide, ?_, fun x hx => ?_⟩
    · simp only [mappingAnswers, metadataSize]
      omega
    · obtain rfl := List.mem_singleton.mp (hready.regions.mem_iff.mp hx)
      exact Or.inr
        (show (mappingAnswers 0).sbrked.1 + (mappingAnswers 0).sbrked.2 ≤ 2 ^ 33 by decide)
  by_cases hsmall : metadataSize + n ≤ size128K
  · -- the first block of the pool is the lowest free one
    obtain ⟨j, hj⟩ := Lists.exists_leastOrder hsmall
    have hb : (⟨poolBase (mappingAnswers 0).sbrked, size128K, true⟩ : Blk)
        ∈ poolLists (poolBase (mappingAnswers 0).sbrked) 32 (.order maxOrder) :=
      mem_poolLists.mpr ⟨rfl, 0, by decide, rfl⟩
    obtain ⟨t, heq, -⟩ := hready.smalloc_least hpos hsmall hj hj.1
      (fun l _ hl b hb => absurd (Slot.order.inj (mem_poolLists.mp hb).1) hl.ne) hb rfl
      fun c hc _ => by
        obtain ⟨-, m, -, rfl⟩ := mem_poolLists.mp hc
        exact Nat.le_add_right _ _
    exact ⟨s, _, _, t, Or.inr ⟨_, _, hready⟩, hserved, heq, Nat.succ_ne_zero _⟩
  · obtain ⟨t, heq, -⟩ := hready.smalloc hserved
    have hvalid : invalidSize n = false := by
      simp only [invalidSize, Bool.or_eq_false_iff, beq_eq_false_iff_ne, decide_eq_false_iff_not]
      omega
    refine ⟨s, _, _, t, Or.inr ⟨_, _, hready⟩, hserved, heq, ?_⟩
    rw [Lists.smalloc, hvalid, if_neg Bool.false_ne_true, if_neg hsmall]
    exact Nat.succ_ne_zero _

/-- **`scalloc` of `malloc_3`** is exact if and only if the product is not reduced, or is
refused. -/
theorem scallocExact_iff :
    ScallocExact num size ↔ num * size < wordLimit ∨
      100000000 < num * size % wordLimit ∨ num * size % wordLimit = 0 := by
  refine ⟨fun hexact => ?_, fun hcond => hcond.elim scallocExact_of_lt scallocExact_of_refused⟩
  by_contra hcond
  push Not at hcond
  obtain ⟨hge, hsmall, hne⟩ := hcond
  have hargs : ¬ (size = 0 ∨ num = 0) := by
    rintro (rfl | rfl)
    · simp [wordLimit] at hge
    · simp [wordLimit] at hge
  obtain ⟨s, os, q, t, h, hserved, heq, hq⟩ := exists_smalloc (Nat.pos_of_ne_zero hne) hsmall
  have hscalloc : s.scalloc os num size
      = some (q, t.setMem (t.mem.fill q (num * size % wordLimit) 0)) := by
    rw [Heap.scalloc_eq hargs (not_lt.mpr hsmall), heq, Option.map_some, if_neg hq]
  -- the only request is the one for the reduced product
  have hcall : (Call.scalloc os num size).Served s := by
    intro os' n hrequest
    rw [Call.request_scalloc hargs (not_lt.mpr hsmall)] at hrequest
    cases hrequest
    exact hserved
  have hlimit := (hexact s os q _ h hcall hscalloc hq).1.2
  have hword : wordLimit = 2 ^ 64 := rfl
  omega

end Malloc3

/-- **`scalloc` never under-allocates**, in either allocator, exactly for those arguments whose
product `size_t` does not reduce or whose reduced product is refused: above the limit by `scalloc`,
and in `malloc_3` also `0`, by `smalloc`. -/
theorem scalloc_exact_iff (num size : ℕ) :
    (Malloc2.ScallocExact num size ↔
      num * size < wordLimit ∨ 100000000 < num * size % wordLimit) ∧
    (Malloc3.ScallocExact num size ↔ num * size < wordLimit ∨
      100000000 < num * size % wordLimit ∨ num * size % wordLimit = 0) :=
  ⟨Malloc2.scallocExact_iff, Malloc3.scallocExact_iff⟩

/-- `scalloc(2^61 + 1, 8)` needs more than `2 ^ 64` bytes; both allocators return a block for 8. -/
theorem not_scallocExact_of_overflow :
    ¬ Malloc2.ScallocExact (2 ^ 61 + 1) 8 ∧ ¬ Malloc3.ScallocExact (2 ^ 61 + 1) 8 := by
  rw [Malloc2.scallocExact_iff, Malloc3.scallocExact_iff]
  decide

/-! ### `srealloc` in `malloc_2` -/

namespace Malloc2

/-- The bytes that belong to the client. -/
def Blk.data (b : Blk) : Set ℕ := Set.Ico b.payload b.fin

/-- The copy that moves `b` to `q` reads from the old payload, writes to that of the block at `q` in
the resulting heap, and does not read what it writes. -/
def SafeMove (b : Blk) (copy : Copy) (q : ℕ) (t : Heap) : Prop :=
  copy.reads ⊆ b.data ∧
  (∃ bs, t.blocks = some bs ∧ ∃ d ∈ bs, d.payload = q ∧ copy.writes ⊆ d.data) ∧
  Disjoint copy.reads copy.writes

theorem Heap.Repr.not_safeMove {s t : Heap} {bs : List Blk} {b : Blk} {outcome : Option ℕ}
    {beyond : ℕ → UInt8} {size q : ℕ} {copy : Copy} (h : s.Repr bs) (hb : b ∈ bs)
    (heq : s.sreallocTraced outcome beyond b.payload size = some (some copy, q, t)) :
    ¬ SafeMove b copy q t := by
  obtain ⟨hgrow, rfl⟩ := h.sreallocTraced_copy hb heq
  -- the copy is as long as the new block, and the old one is shorter
  rintro ⟨hreads, -⟩
  exact Copy.not_reads_subset (Nat.le_add_right _ _) (Nat.add_lt_add_left hgrow _) hreads

/-- `smalloc(8)`, and then a request for 100 bytes: the block moves up. -/
theorem exists_move :
    ∃ (s : Heap) (bs : List Blk) (b : Blk) (copy : Copy) (q : ℕ) (t : Heap), s.Repr bs ∧ b ∈ bs ∧
      b.isFree = false ∧ q ≠ b.payload ∧
      s.sreallocTraced (some 0) (fun _ => 0) b.payload 100 = some (some copy, q, t) := by
  have hrepr : freshHeap.Repr [] := .fresh freshHeap_fresh
  obtain ⟨p, s, bs, heq, halloc, -⟩ := hrepr.smalloc_firstFit (some 0) (show 1 ≤ 8 by decide)
    (by decide)
  have hrun : ((freshHeap.smalloc (some 0) 8).bind fun x =>
      (x.2.sreallocTraced (some 0) (fun _ => 0) x.1 100).map fun y => (x.1, y.1.isSome, y.2.1))
        = some (4128, true, 4168) := rfl
  rw [heq, Option.bind_some, Option.map_eq_some_iff] at hrun
  obtain ⟨⟨copy, q, t⟩, hmove, hval⟩ := hrun
  simp only [Prod.mk.injEq] at hval
  obtain ⟨rfl, hsome, rfl⟩ := hval
  obtain ⟨copy, rfl⟩ := Option.isSome_iff_exists.mp hsome
  obtain ⟨b, hb, hbq, hbf, -⟩ := halloc.exists_block hrepr (by decide)
  refine ⟨s, bs, b, copy, 4168, t, halloc.repr hrepr, hb, hbf, ?_, ?_⟩
  · rw [hbq]
    decide
  · rw [hbq]
    exact hmove

end Malloc2

/-! ### `srealloc` in `malloc_3` -/

namespace Malloc3

/-- The bytes that belong to the client: those behind the header. -/
def Blk.data (b : Blk) : Set ℕ := Set.Ico b.payload (b.addr + b.size)

/-- The copy that moves `b` to `q` reads from the old payload, and writes to that of the block at
`q` in the resulting heap; `memmove` allows the two to overlap. -/
def SafeMove (b : Blk) (copy : Copy) (q : ℕ) (t : Heap) : Prop :=
  copy.reads ⊆ b.data ∧
  ∃ i L, t.blocks i = some L ∧ ∃ d ∈ L, d.payload = q ∧ copy.writes ⊆ d.data

theorem Ready.not_safeMove {r : ℕ × ℕ} {s t : Heap} {P : Lists} {os : Answers} {b : Blk}
    {junk k q size : ℕ} {copy : Copy} (h : Ready r s P) (hb : b ∈ P (.order k))
    (hbf : b.isFree = false) (hword : size < wordLimit) (hos : s.MmapAnswers os size)
    (heq : s.sreallocTraced os junk b.payload size = some (some copy, q, t)) :
    ¬ SafeMove b copy q t := by
  obtain ⟨hsrc, hlen⟩ := h.sreallocTraced_copy hb hbf hword hos heq
  have hhdr := h.metadataSize_lt hb
  have hpos : 0 < metadataSize := by decide
  rintro ⟨hreads, -⟩
  refine Copy.not_reads_subset ?_ ?_ hreads
  · rw [hsrc, Blk.payload]
    omega
  · rw [hsrc, Blk.payload]
    omega

/-- `smalloc(1)` twice, and then 100 bytes for the first block: its buddy is in use, so it moves. -/
theorem exists_move :
    ∃ s P copy q t, Ready sampleAnswers.sbrked s P ∧ sampleBlk 0 128 false ∈ P (.order 0) ∧
      q ≠ (sampleBlk 0 128 false).payload ∧
      s.sreallocTraced sampleAnswers 0 (sampleBlk 0 128 false).payload 100
        = some (some copy, q, t) := by
  obtain ⟨s₁, P₁, -, hready₁, hlow₁⟩ := exists_first_block
  obtain ⟨s, -, hready⟩ := hready₁.smalloc
    (show s₁.Served sampleAnswers 1 from sampleAnswers_served (by decide))
  rw [hlow₁.smalloc_zero rfl] at hready
  dsimp only at hready
  set P := P₁.mark (.order 0) (sampleBlk 128 128 true).addr false with hP
  have hlow : P.Low [sampleBlk 0 128 false, sampleBlk 128 128 false] [sampleBlk 256 256 true]
      [sampleBlk 512 512 true] :=
    ⟨by rw [hP, Lists.mark, Function.update_self, hlow₁.zero]; rfl, hlow₁.one, hlow₁.two⟩
  have hb : sampleBlk 0 128 false ∈ P (.order 0) := by
    rw [hlow.zero]
    exact List.mem_cons_self
  have hbuddy : sampleBlk 128 128 false ∈ P (.order 0) := by
    rw [hlow.zero]
    exact List.mem_cons_of_mem _ List.mem_cons_self
  obtain ⟨hnull, -⟩ | ⟨q, t, P', -, hne, -, -, heq⟩ := hready.sreallocTraced_move hb rfl
    (show 1 ≤ 100 by decide) (by decide) (show (sampleBlk 0 128 false).size < 148 by decide)
    (hready.repr.node _ _ hbuddy).isFree
    (show s.Mapped sampleAnswers 100 from .of_small (by decide))
  · -- there is a free block of 256 bytes
    have halloc :
        ((P.mark (.order 0) (sampleBlk 0 128 false).addr true).smalloc sampleAnswers 100).1
        = (sampleBlk 256 256 true).payload := by
      show (Lists.allocLoop 148 10 1 0 (P.mark (.order 0) (sampleBlk 0 128 false).addr true)).1 = _
      rw [Lists.allocLoop, if_pos (by decide),
        show P.mark (.order 0) (sampleBlk 0 128 false).addr true (.order 1) = P (.order 1) from rfl,
        hlow.one]
      rfl
    exact absurd (halloc.symm.trans hnull) (Blk.payload_ne_zero _)
  · exact ⟨s, P, _, q, t, hready, hb, hne, heq 0⟩

end Malloc3

/-- **No move stays inside what the client owned**, in either allocator: whenever `srealloc` of a
block in use makes a copy and returns another pointer, the copy reads bytes behind the old
payload. -/
theorem srealloc_reads_beyond (size : ℕ) (copy : Copy) (q : ℕ) :
    (∀ (s : Malloc2.Heap) bs b outcome beyond t, s.Repr bs → b ∈ bs →
      b.isFree = false → s.sreallocTraced outcome beyond b.payload size = some (some copy, q, t) →
      q ≠ b.payload → ¬ Malloc2.SafeMove b copy q t) ∧
    ∀ (s : Malloc3.Heap) r P k b os junk t, Malloc3.Ready r s P → b ∈ P (.order k) →
      b.isFree = false → size < wordLimit → s.MmapAnswers os size →
      s.sreallocTraced os junk b.payload size = some (some copy, q, t) →
      q ≠ b.payload → ¬ Malloc3.SafeMove b copy q t := by
  refine ⟨?_, ?_⟩
  · intro s bs b outcome beyond t h hb _ heq _
    exact h.not_safeMove hb heq
  · intro s r P k b os junk t h hb hbf hword hos heq _
    exact h.not_safeMove hb hbf hword hos heq

/-- The theorem at one move of each allocator. -/
theorem srealloc_reads_beyond_sample :
    (∃ (s : Malloc2.Heap) (b : Malloc2.Blk) (copy : Copy) (q : ℕ) (t : Malloc2.Heap),
      s.sreallocTraced (some 0) (fun _ => 0) b.payload 100 = some (some copy, q, t) ∧
      q ≠ b.payload ∧ ¬ Malloc2.SafeMove b copy q t) ∧
    ∃ (s : Malloc3.Heap) (b : Malloc3.Blk) (copy : Copy) (q : ℕ) (t : Malloc3.Heap),
      s.sreallocTraced Malloc3.sampleAnswers 0 b.payload 100 = some (some copy, q, t) ∧
      q ≠ b.payload ∧ ¬ Malloc3.SafeMove b copy q t := by
  obtain ⟨s, bs, b, copy, q, t, hrepr, hb, hbf, hne, heq⟩ := Malloc2.exists_move
  obtain ⟨s', P, copy', q', t', hready, hb', hne', heq'⟩ := Malloc3.exists_move
  have hos : s'.MmapAnswers Malloc3.sampleAnswers 100 := fun _ hlarge => absurd hlarge (by decide)
  exact ⟨⟨s, b, copy, q, t, heq, hne,
      (srealloc_reads_beyond 100 copy q).1 s bs b _ _ t hrepr hb hbf heq hne⟩,
    s', _, copy', q', t', heq', hne',
      (srealloc_reads_beyond 100 copy' q').2 s' _ P 0 _ _ _ t' hready hb' rfl (by decide) hos heq'
        hne'⟩

/-- `srealloc(p, 100)` of a block for 8 bytes in `malloc_2`, and of one of 128 bytes in
`malloc_3`. -/
theorem exists_unsafe_moves :
    (∃ (s : Malloc2.Heap) (bs : List Malloc2.Blk) (b : Malloc2.Blk) (copy : Copy) (q : ℕ)
        (t : Malloc2.Heap), s.Repr bs ∧ b ∈ bs ∧ b.isFree = false ∧ q ≠ b.payload ∧
      s.sreallocTraced (some 0) (fun _ => 0) b.payload 100 = some (some copy, q, t) ∧
      ¬ Malloc2.SafeMove b copy q t) ∧
    ∃ s P copy q t, Malloc3.Ready Malloc3.sampleAnswers.sbrked s P ∧
      Malloc3.sampleBlk 0 128 false ∈ P (.order 0) ∧ q ≠ (Malloc3.sampleBlk 0 128 false).payload ∧
      s.sreallocTraced Malloc3.sampleAnswers 0 (Malloc3.sampleBlk 0 128 false).payload 100
        = some (some copy, q, t) ∧
      ¬ Malloc3.SafeMove (Malloc3.sampleBlk 0 128 false) copy q t := by
  obtain ⟨s, bs, b, copy, q, t, hrepr, hb, hbf, hne, heq⟩ := Malloc2.exists_move
  obtain ⟨s', P, copy', q', t', hready, hb', hne', heq'⟩ := Malloc3.exists_move
  have hos : s'.MmapAnswers Malloc3.sampleAnswers 100 := fun _ hlarge => absurd hlarge (by decide)
  exact ⟨⟨s, bs, b, copy, q, t, hrepr, hb, hbf, hne, heq, hrepr.not_safeMove hb heq⟩,
    s', P, copy', q', t', hready, hb', hne', heq',
    hready.not_safeMove hb' rfl (by decide) hos heq'⟩

end OsHomework
