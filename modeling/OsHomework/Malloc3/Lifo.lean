import OsHomework.Malloc3.Ready

/-!
# Freeing in the reverse order of allocating

As long as nothing but the latest block is freed, the heap looks as if the blocks that were freed
had never been allocated: `sfree` undoes the `smalloc` before it on all lists
(`Ready.sfree_smalloc`). The merging loop finds one upper half after the other that the split has
left (`free_take`), and it stops there because of an invariant of all such heaps: where the buddy of
a free block below 128 KiB starts there is a block in use (`Lists.Grounded`).
-/

namespace OsHomework.Malloc3

namespace Lists

variable {P : Lists} {base index n m k a : ℕ} {b c : Blk} {i : Slot} {v : Bool}

/-! ### Undoing an insertion -/

theorem remove_insert (h : ∀ c ∈ P i, c.addr ≠ b.addr) : (P.insert i b).remove i b.addr = P := by
  have hlist : ((P i).orderedInsert (fun x y => x.addr < y.addr) b).filter
      (fun c => decide (c.addr ≠ b.addr)) = P i := by
    rw [List.orderedInsert_eq_take_drop, List.filter_append, List.filter_cons, if_neg (by simp),
      ← List.filter_append, List.takeWhile_append_dropWhile]
    exact List.filter_eq_self.mpr fun c hc => decide_eq_true (h c hc)
  rw [remove, insert, Function.update_self, hlist, Function.update_idem, Function.update_eq_self]

theorem insert_remove (hb : b ∈ P i) (hsorted : (P i).Pairwise fun x y => x.addr < y.addr) :
    (P.remove i b.addr).insert i b = P := by
  have hlist : ((P i).filter (fun c => decide (c.addr ≠ b.addr))).orderedInsert
      (fun x y => x.addr < y.addr) b = P i := by
    -- the order of the addresses puts the block back where it was
    have hanti : Std.Antisymm fun x y : Blk => x.addr < y.addr :=
      ⟨fun _ _ hxy hyx => absurd hxy hyx.asymm⟩
    have haddrs : ((P i).map Blk.addr).Nodup :=
      (List.pairwise_map.mpr hsorted).imp fun hlt => Nat.ne_of_lt hlt
    rw [filter_addr_ne haddrs hb]
    exact List.orderedInsert_erase b (P i) hb hsorted
  rw [insert, remove, Function.update_self, hlist, Function.update_idem, Function.update_eq_self]

theorem mark_insert (h : ∀ c ∈ P i, c.addr ≠ b.addr) :
    (P.insert i b).mark i b.addr v = P.insert i { b with isFree := v } := by
  have hlist : ((P i).orderedInsert (fun x y => x.addr < y.addr) b).map
      (fun c => if c.addr = b.addr then { c with isFree := v } else c)
        = (P i).orderedInsert (fun x y => x.addr < y.addr) { b with isFree := v } := by
    -- no block beside it has this address
    have hkeep : ∀ l : List Blk, (∀ c ∈ l, c ∈ P i) →
        l.map (fun c => if c.addr = b.addr then { c with isFree := v } else c) = l := by
      intro l hl
      exact (List.map_congr_left fun c hc => if_neg (h c (hl c hc))).trans (List.map_id' _)
    rw [List.orderedInsert_eq_take_drop, List.orderedInsert_eq_take_drop, List.map_append,
      List.map_cons, if_pos rfl, hkeep _ fun c hc => (List.takeWhile_subset _) hc,
      hkeep _ fun c hc => (List.dropWhile_subset _) hc]
  rw [mark, insert, Function.update_self, hlist, Function.update_idem]
  rfl

theorem mark_mark {w : Bool} : (P.mark i a v).mark i a w = P.mark i a w := by
  have hlist : ((P i).map fun c => if c.addr = a then { c with isFree := v } else c).map
      (fun c => if c.addr = a then { c with isFree := w } else c)
        = (P i).map fun c => if c.addr = a then { c with isFree := w } else c := by
    rw [List.map_map]
    apply List.map_congr_left
    intro c _
    simp only [Function.comp_apply]
    split_ifs <;> rfl
  rw [mark, mark, Function.update_self, hlist, Function.update_idem]
  rfl

/-- The last half that is split off. -/
theorem splitUpper_succ (P : Lists) (a n index : ℕ) :
    splitUpper a (n + 1) index P
      = (splitUpper a n index P).insert (.order (index - (n + 1)))
        (upperHalf a (index - (n + 1))) := by
  induction n generalizing index P with
  | zero => rfl
  | succ n ih =>
    rw [splitUpper, ih]
    have hindex : index - 1 - (n + 1) = index - (n + 1 + 1) := by omega
    rw [hindex]
    rfl

/-! ### The merging loop undoes a split -/

/-- The lists while a block at `a`, taken from the order `index`, grows back: it is free and has
reached the order `m`. -/
def regrown (P : Lists) (a index m : ℕ) : Lists :=
  (splitUpper a (index - m) index (P.remove (.order index) a)).insert (.order m) ⟨a, sizeAt m, true⟩

/-- Every free block below 128 KiB has a block in use at its buddy address. -/
def Grounded (P : Lists) : Prop :=
  ∀ b ∈ P.pool, b.isFree = true → b.size < size128K →
    ∃ c ∈ P.pool, c.addr = b.addr ^^^ b.size ∧ c.isFree = false

/-- The two halves of a block make up the block. -/
theorem merged_upperHalf (hm : m < maxOrder) :
    Blk.merged ⟨a, sizeAt m, true⟩ (upperHalf a m) = ⟨a, sizeAt (m + 1), true⟩ := by
  rw [Blk.merged, sizeAt_succ hm]
  show (⟨min a (a + sizeAt m), _, _⟩ : Blk) = _
  rw [min_eq_left (Nat.le_add_right _ _)]

section Regrown

variable (h : P.Tiling base) (hb : b ∈ P (.order index)) (hfree : b.isFree = true)
  (hsorted : (P (.order index)).Pairwise fun x y => x.addr < y.addr)

include h hb

/-- The halves of a block are in no list before it is split. -/
theorem Tiling.splitUpper_addr_ne (hn : n ≤ index)
    (hc : c ∈ splitUpper b.addr n index (P.remove (.order index) b.addr) (.order k)) :
    c.addr ≠ b.addr := by
  intro heq
  obtain hc | ⟨j, -, hj, -, rfl⟩ := (mem_splitUpper hn).mp hc
  · obtain ⟨hc, hne⟩ := mem_remove.mp hc
    exact hne (congrArg Slot.order (h.eq_of_addr hc hb heq).1) heq
  · have := sizeAt_pos (hj.le.trans (h.sized index b hb).1)
    have heq' : b.addr + sizeAt j = b.addr := heq
    omega

/-- **A round of the merging loop** undoes one split. -/
theorem Tiling.join_regrown (hm : m < index) :
    (P.regrown b.addr index m).join m ⟨b.addr, sizeAt m, true⟩ (upperHalf b.addr m)
      = P.regrown b.addr index (m + 1) := by
  obtain ⟨hindex, hsize⟩ := h.sized index b hb
  have hpos := sizeAt_pos (hm.le.trans hindex)
  set T := splitUpper b.addr (index - (m + 1)) index (P.remove (.order index) b.addr) with hT
  have hsplit : splitUpper b.addr (index - m) index (P.remove (.order index) b.addr)
      = T.insert (.order m) (upperHalf b.addr m) := by
    have h1 : index - m = index - (m + 1) + 1 := by omega
    have h2 : index - (index - (m + 1) + 1) = m := by omega
    rw [h1, splitUpper_succ, h2]
  -- neither of the two blocks was in the list of the order `m`
  have hupper : ∀ c ∈ T (.order m), c.addr ≠ (upperHalf b.addr m).addr := by
    intro c hc heq
    have heq' : c.addr = b.addr + sizeAt m := heq
    obtain hc | ⟨j, hj, -, hmj, -⟩ := (mem_splitUpper (Nat.sub_le _ _)).mp hc
    · -- a block there would overlap the one that was taken
      have hc' := (mem_remove.mp hc).1
      have hlt := sizeAt_strictMono hm hindex
      have hinside : c.addr ∈ b.range := ⟨by omega, by rw [hsize]; omega⟩
      rw [h.tiles.eq_of_mem ⟨m, hc'⟩ ⟨index, hb⟩ (h.addr_mem_range ⟨m, hc'⟩) hinside] at heq'
      omega
    · have := Slot.order.inj hmj
      omega
  have hlow : ∀ c ∈ T.insert (.order m) (upperHalf b.addr m) (.order m), c.addr ≠ b.addr := by
    intro c hc
    rw [← hsplit] at hc
    exact h.splitUpper_addr_ne hb (Nat.sub_le _ _) hc
  have hremove : ((T.insert (.order m) (upperHalf b.addr m)).insert (.order m)
      ⟨b.addr, sizeAt m, true⟩).remove (.order m) b.addr = T.insert (.order m)
        (upperHalf b.addr m) :=
    remove_insert (b := ⟨b.addr, sizeAt m, true⟩) hlow
  rw [Lists.regrown, hsplit, Lists.join, hremove, remove_insert hupper,
    merged_upperHalf (by omega)]
  rfl

include hfree hsorted

theorem Tiling.regrown_self : P.regrown b.addr index index = P := by
  have hbeq : (⟨b.addr, sizeAt index, true⟩ : Blk) = b := by rw [← (h.sized index b hb).2, ← hfree]
  rw [regrown, Nat.sub_self, hbeq]
  exact insert_remove hb hsorted

/-- Freeing what has been taken, before anything is merged. -/
theorem Tiling.mark_take (hn : n ≤ index) :
    (P.take index n b).mark (.order (index - n)) b.addr true
      = P.regrown b.addr index (index - n) := by
  by_cases hn0 : n = 0
  · -- without a split the block is marked as it was
    have hself : P.mark (.order index) b.addr true = P := mark_eq_self fun c hc heq => by
      rw [(h.eq_of_addr hc hb heq).2, hfree]
    rw [Lists.take, if_pos hn0, hn0, Nat.sub_zero, mark_mark, hself,
      h.regrown_self hb hfree hsorted]
  · rw [Lists.take, if_neg hn0, Lists.regrown, Nat.sub_sub_self hn]
    have hne :
        ∀ c ∈ splitUpper b.addr n index (P.remove (.order index) b.addr) (.order (index - n)),
        c.addr ≠ b.addr := fun c hc => h.splitUpper_addr_ne hb hn hc
    exact mark_insert (b := ⟨b.addr, sizeAt (index - n), false⟩) hne

theorem Tiling.regrown (hm : m ≤ index) : (P.regrown b.addr index m).Tiling base := by
  have hsub : index - (index - m) = m := Nat.sub_sub_self hm
  have hlow : (⟨b.addr, sizeAt m, false⟩ : Blk) ∈ P.take index (index - m) b (.order m) := by
    refine (h.mem_take hb (Nat.sub_le _ _)).mpr (Or.inr (Or.inl ?_))
    rw [hsub]
    exact ⟨rfl, rfl⟩
  have hmark := h.mark_take hb hfree hsorted (Nat.sub_le index m)
  rw [hsub] at hmark
  rw [← hmark]
  exact (h.take hb (Nat.sub_le _ _)).mark hlow true

/-- **The merging loop** undoes all splits, and stops at the block that was taken. -/
theorem Tiling.merge_regrown (hground : P.Grounded) {d fuel : ℕ} (hd : m + d = index)
    (hm : m < maxOrder) (hfuel : d < fuel) :
    Lists.merge fuel ⟨b.addr, sizeAt m, true⟩ (P.regrown b.addr index m) = some P := by
  obtain ⟨hindex, hsize⟩ := h.sized index b hb
  induction d generalizing m fuel with
  | zero =>
    obtain ⟨fuel, rfl⟩ : ∃ f, fuel = f + 1 := ⟨fuel - 1, by omega⟩
    obtain rfl : m = index := hd
    have hlt : b.size < size128K := by
      rw [hsize]
      exact (sizeAt_lt_128K hindex).mpr hm
    -- the block at the buddy address is in use
    obtain ⟨c, hc, hca, hcf⟩ := hground b ⟨m, hb⟩ hfree hlt
    rw [h.regrown_self hb hfree hsorted, Lists.merge]
    simp only [← hsize, ← hca, h.lookup_eq hc, hcf, Bool.false_eq_true, false_and, if_false]
  | succ d ih =>
    obtain ⟨fuel, rfl⟩ : ∃ f, fuel = f + 1 := ⟨fuel - 1, by omega⟩
    have hmi : m < index := by omega
    -- the buddy is the upper half that the last split has left, and it is free
    have hbuddy : b.addr ^^^ sizeAt m = (upperHalf b.addr m).addr := by
      have := upperHalf_buddy hmi hindex (hsize ▸ h.dvd b ⟨index, hb⟩)
      have hself : (upperHalf b.addr m).size = sizeAt m := rfl
      rw [hself] at this
      nth_rewrite 1 [← this]
      rw [Nat.xor_xor_cancel_right]
    have hmem : upperHalf b.addr m ∈ (P.regrown b.addr index m).pool := by
      refine ⟨m, mem_insert.mpr (Or.inr ((mem_splitUpper (Nat.sub_le _ _)).mpr (Or.inr ?_)))⟩
      exact ⟨m, by omega, hmi, rfl, rfl⟩
    have hlook := (h.regrown hb hfree hsorted hmi.le).lookup_eq hmem
    have hlt : sizeAt m < size128K := (sizeAt_lt_128K hm.le).mpr hm
    have hsame : ¬ ((upperHalf b.addr m).addr < b.addr ∧ (upperHalf b.addr m).size ≠ sizeAt m) :=
      fun hcond => hcond.2 rfl
    have hup : (upperHalf b.addr m).isFree = true := rfl
    rw [Lists.merge]
    simp only [hbuddy, hlook, hup, hlt, and_self, if_true, findSizeIndexInList_sizeAt hm.le,
      if_neg hsame, h.join_regrown hb hmi, merged_upperHalf hm, ← sizeAt_succ hm]
    split_ifs with hlast
    · -- the block has its old size again, which is the largest
      have hmax : m + 1 = maxOrder := sizeAt_injective hm le_rfl hlast
      obtain rfl : m + 1 = index := by omega
      rw [h.regrown_self hb hfree hsorted]
    · have hm' : m + 1 < maxOrder := lt_of_le_of_ne hm fun heq => hlast (heq ▸ rfl)
      exact ih (by omega) hm' (by omega)

/-- **`sfree` undoes the taking** of a block. -/
theorem Tiling.free_take (hground : P.Grounded) (hn : n ≤ index) :
    (P.take index n b).free (.order (index - n)) ⟨b.addr, sizeAt (index - n), false⟩ = some P := by
  obtain ⟨hindex, hsize⟩ := h.sized index b hb
  rw [Lists.free]
  simp only [h.mark_take hb hfree hsorted hn]
  split_ifs with hlast
  · -- a block of 128 KiB, which was not split
    have hmax : index - n = maxOrder := sizeAt_injective (by omega) le_rfl hlast
    have hself : index - n = index := by omega
    rw [hself, h.regrown_self hb hfree hsorted]
  · have hlt : index - n < maxOrder :=
      lt_of_le_of_ne ((Nat.sub_le _ _).trans hindex) fun heq => hlast (heq ▸ rfl)
    exact h.merge_regrown hb hfree hsorted hground (Nat.sub_add_cancel hn) hlt (by omega)

end Regrown

theorem grounded_poolLists : (poolLists base 32).Grounded := by
  intro b hb _ hlt
  rw [pool_poolLists] at hb
  obtain ⟨j, -, rfl⟩ := hb
  exact absurd rfl hlt.ne

theorem Grounded.take (hground : P.Grounded) (h : P.Tiling base) (hb : b ∈ P (.order index))
    (hn : n ≤ index) (hfree : b.isFree = true) : (P.take index n b).Grounded := by
  obtain ⟨hindex, hsize⟩ := h.sized index b hb
  have hpool := h.pool_take hb hn
  intro c hc hcf hlt
  rw [hpool] at hc
  obtain ⟨hc, -⟩ | rfl | ⟨j, -, hj, rfl⟩ := hc
  · -- a block in use stays where it is
    obtain ⟨d, hd, hda, hdf⟩ := hground c hc hcf hlt
    refine ⟨d, ?_, hda, hdf⟩
    rw [hpool]
    refine Or.inl ⟨hd, ?_⟩
    rintro rfl
    exact absurd (hdf.symm.trans hfree) Bool.noConfusion
  · exact absurd hcf Bool.noConfusion
  · -- the buddy of an upper half is the lower one, of which the taken block is a part or all
    refine ⟨⟨b.addr, sizeAt (index - n), false⟩, ?_, ?_, rfl⟩
    · rw [hpool]
      exact Or.inr (Set.mem_insert _ _)
    · exact (upperHalf_buddy hj hindex (hsize ▸ h.dvd b ⟨index, hb⟩)).symm

end Lists

/-! ### `sfree` after `smalloc` -/

section Calls

variable {r : ℕ × ℕ} {s s' : Heap} {P P' : Lists} {os : Answers} {size ret : ℕ}

theorem Allocates.grounded (h : Allocates P os size ret P') (ht : P.Tiling (poolBase r))
    (hground : P.Grounded) : P'.Grounded := by
  cases h with
  | refused => exact hground
  | pool hn hb hfree hfits => exact hground.take ht hb hn hfree
  | mapped hvalid hlarge =>
    have hpool : (P.insert .mapped ⟨os.mmapped, metadataSize + size, false⟩).pool = P.pool :=
      Lists.pool_congr fun k => Function.update_of_ne Slot.noConfusion _ _
    rw [Lists.Grounded, hpool]
    exact hground

/-- **`sfree` of what `smalloc` has returned** restores all lists. The heap `s'` need not be the one
that `smalloc` left, as long as it holds the same lists. -/
theorem Ready.sfree_smalloc (h : Ready r s P) (hground : P.Grounded) (hserved : s.Served os size)
    (h' : Ready r s' P') (halloc : Allocates P os size ret P') :
    ∃ s'', s'.sfree ret = some s'' ∧ Ready r s'' P := by
  cases halloc with
  | refused => exact ⟨s', rfl, h'⟩
  | @pool index n b hn hb hfree hfits =>
    have hsorted := List.pairwise_map.mp (h.repr.list (.order index)).sorted
    have hlow : (⟨b.addr, sizeAt (index - n), false⟩ : Blk)
        ∈ P.take index n b (.order (index - n)) :=
      (h.tiling.mem_take hb hn).mpr (Or.inr (Or.inl ⟨rfl, rfl⟩))
    -- the merging loop undoes the splits
    have hfreed := h.tiling.free_take hb hfree hsorted hground hn
    obtain ⟨s'', heq, hready⟩ := h'.sfree_order hlow rfl hfreed h.tiling Lists.take_mapped.symm
    exact ⟨s'', heq, hready⟩
  | mapped hvalid hlarge =>
    have hok := hserved.mmap hvalid hlarge
    rw [h.firstMalloc, if_neg Bool.noConfusion] at hok
    -- the mapping is new, so that removing it removes nothing else
    have hnew : ∀ c ∈ P .mapped, c.addr ≠ os.mmapped := by
      intro c hc heq
      have h1 := h.separate_mmapped hok hc
      have h2 := h.metadataSize_lt hc
      omega
    have hremove := Lists.remove_insert (b := ⟨os.mmapped, metadataSize + size, false⟩) hnew
    obtain ⟨s'', heq, hready⟩ := h'.sfree_mapped (Lists.self_mem_insert _ _ _)
    rw [hremove] at hready
    exact ⟨s'', heq, hready⟩

end Calls

/-! ### Bracketed runs -/

/-- The heap, and the results that have not been given back, the latest first. -/
structure Stacked where
  heap : Heap
  stack : List ℕ

/-- One event of a client that frees only the latest result it still has, be it `NULL`. -/
inductive LifoStep : Stacked → Event → Stacked → Prop
  | smalloc {s : Stacked} {os : Answers} {size ret : ℕ} {heap : Heap}
      (hserved : s.heap.Served os size) (hexec : s.heap.smalloc os size = some (ret, heap)) :
      LifoStep s (.call (.smalloc os size) ret) ⟨heap, ret :: s.stack⟩
  | sfree {s : Stacked} {p : ℕ} {stack : List ℕ} {heap : Heap} (htop : s.stack = p :: stack)
      (hexec : s.heap.sfree p = some heap) : LifoStep s (.call (.sfree p) 0) ⟨heap, stack⟩
  | write {s : Stacked} {p i : ℕ} {v : UInt8} (hp : p ∈ s.stack) (hp0 : p ≠ 0)
      (hi : i < s.heap.payloadSize p) :
      LifoStep s (.write p i v)
        { s with heap := s.heap.setMem (Function.update s.heap.mem (p + i) v) }

/-- The runs of such clients, from the pool as the first call sets it up. -/
def lifo : System Stacked Event where
  init s := (∃ (s₀ : Heap) (os : Answers), s₀.Fresh ∧ os.SbrkOk ∧ s₀.initPool os = some s.heap) ∧
    s.stack = []
  step := LifoStep

/-- The calls of `smalloc` that are still open after an event. -/
def keepOpen (calls : List Event) : Event → List Event
  | .call (.smalloc os size) ret => calls ++ [.call (.smalloc os size) ret]
  | .call (.sfree _) _ => calls.dropLast
  | _ => calls

/-- The calls of `smalloc` whose results have not been freed. -/
def survivors (es : List Event) : List Event := es.foldl keepOpen []

theorem survivors_append (es : List Event) (e : Event) :
    survivors (es ++ [e]) = keepOpen (survivors es) e := by
  rw [survivors, List.foldl_append]
  rfl

theorem survivors_smalloc (es : List Event) :
    ∀ e ∈ survivors es, ∃ os size ret, e = .call (.smalloc os size) ret := by
  induction es using List.reverseRecOn with
  | nil => exact fun e he => absurd he List.not_mem_nil
  | append_singleton es l ih =>
    intro e he
    rw [survivors_append] at he
    cases l with
    | write p i v => exact ih e he
    | call c ret =>
      cases c with
      | smalloc os size =>
        obtain he | he := List.mem_append.mp he
        · exact ih e he
        · exact ⟨os, size, ret, List.mem_singleton.mp he⟩
      | scalloc os num size => exact ih e he
      | sfree p => exact ih e (List.mem_of_mem_dropLast he)

/-- A heap on which nothing but `smalloc` has been called, and the results on the stack. -/
structure Opened (r : ℕ × ℕ) (u : Stacked) (P : Lists) : Prop where
  ready : Ready r u.heap P
  grounded : P.Grounded
  stack : ∀ p ∈ u.stack, p ≠ 0 → p ∈ P.inUse

section Runs

variable {r : ℕ × ℕ} {s t u : Stacked} {P P₀ : Lists} {es : List Event} {os : Answers}
  {size ret : ℕ} {heap : Heap}

theorem Opened.smalloc (h : Opened r u P) (hserved : u.heap.Served os size) :
    ∃ heap, u.heap.smalloc os size = some ((P.smalloc os size).1, heap) ∧
      Opened r ⟨heap, (P.smalloc os size).1 :: u.stack⟩ (P.smalloc os size).2 := by
  obtain ⟨heap, heq, hready⟩ := h.ready.smalloc hserved
  have halloc := smalloc_allocates P os size
  refine ⟨heap, heq, hready, halloc.grounded h.ready.tiling h.grounded, fun p hp hp0 => ?_⟩
  rw [halloc.inUse_eq h.ready.tiling]
  obtain rfl | hp := List.mem_cons.mp hp
  · rw [if_neg hp0]
    exact Set.mem_insert _ _
  · -- an older result is still in use
    have := h.stack p hp hp0
    split_ifs
    · exact this
    · exact Set.mem_insert_of_mem _ this

/-- A run of nothing but `smalloc`. -/
theorem Opened.of_run (hs : Opened r s P₀) (h : lifo.Run s es u)
    (hes : ∀ e ∈ es, ∃ os size ret, e = .call (.smalloc os size) ret) : ∃ P, Opened r u P := by
  induction h with
  | nil => exact ⟨P₀, hs⟩
  | @snoc es v u e _ hstep ih =>
    obtain ⟨P, hv⟩ := ih fun e' he' => hes e' (List.mem_append_left _ he')
    obtain ⟨os, size, ret, rfl⟩ := hes e (List.mem_append_right _ (List.mem_singleton_self _))
    cases hstep with
    | smalloc hserved hexec =>
      obtain ⟨heap, heq, hopen⟩ := hv.smalloc hserved
      rw [hexec] at heq
      cases heq
      exact ⟨_, hopen⟩

/-- The heap `t` and the heap `u` of a run of the surviving calls hold the same lists. -/
structure SameLists (r : ℕ × ℕ) (s : Stacked) (es : List Event) (t u : Stacked) (P : Lists) :
    Prop where
  run : lifo.Run s (survivors es) u
  stack : u.stack = t.stack
  opened : Opened r u P
  ready : Ready r t.heap P

/-- When the latest result is freed, the run of the surviving calls ends with the `smalloc` that
returned it, and the lists before that call come back. -/
theorem SameLists.sfree {p : ℕ} {stack : List ℕ} (hsame : SameLists r s es t u P)
    (hs : Opened r s P₀) (hempty : s.stack = []) (htop : t.stack = p :: stack) :
    ∃ heap, t.heap.sfree p = some heap ∧
      ∃ v Q, SameLists r s (es ++ [.call (.sfree p) 0]) ⟨heap, stack⟩ v Q := by
  have hstack := hsame.stack.trans htop
  -- the surviving calls are calls of `smalloc`
  have hall := survivors_smalloc es
  have hrun := hsame.run
  generalize hes : survivors es = calls at hrun hall
  cases hrun with
  | nil => exact absurd (hempty.symm.trans hstack) (List.cons_ne_nil _ _).symm
  | @snoc calls v _ e hrun' hstep =>
    obtain ⟨os, size, ret, rfl⟩ := hall e (List.mem_append_right _ (List.mem_singleton_self _))
    obtain ⟨Q, hQ⟩ := hs.of_run hrun' fun e' he' => hall e' (List.mem_append_left _ he')
    cases hstep with
    | smalloc hserved hexec =>
      obtain ⟨heap, heq, hopen⟩ := hQ.smalloc hserved
      rw [hexec] at heq
      cases heq
      obtain ⟨rfl, rfl⟩ := List.cons.inj hstack
      -- one heap has one set of lists
      have hP : P = (Q.smalloc os size).2 := hsame.opened.ready.repr.unique hopen.ready.repr
      obtain ⟨heap', hfree, hready'⟩ := hQ.ready.sfree_smalloc hQ.grounded hserved
        (hP ▸ hsame.ready) (smalloc_allocates Q os size)
      refine ⟨heap', hfree, v, Q, ?_, rfl, hQ, hready'⟩
      rw [survivors_append, hes]
      show lifo.Run s (calls ++ [_]).dropLast v
      rwa [List.dropLast_concat]

/-- **Bracketing**, by induction on the run. -/
theorem SameLists.of_run (hs : Opened r s P₀) (hempty : s.stack = []) (h : lifo.Run s es t) :
    ∃ u P, SameLists r s es t u P := by
  induction h with
  | nil => exact ⟨s, P₀, .nil, rfl, hs, hs.ready⟩
  | @snoc es t t' e _ hstep ih =>
    obtain ⟨u, P, hsame⟩ := ih
    cases hstep with
    | @smalloc os size ret heap hserved hexec =>
      obtain ⟨heap₁, heq₁, hready₁⟩ := hsame.ready.smalloc hserved
      rw [hexec] at heq₁
      cases heq₁
      -- the same answers are good for the other heap
      have hserved' := hsame.ready.served hsame.opened.ready hserved
      obtain ⟨heap₂, heq₂, hopen₂⟩ := hsame.opened.smalloc hserved'
      refine ⟨_, _, ?_, ?_, hopen₂, hready₁⟩
      · rw [survivors_append]
        exact hsame.run.snoc (LifoStep.smalloc hserved' heq₂)
      · rw [hsame.stack]
    | @sfree p stack heap htop hexec =>
      obtain ⟨heap', heq, hsame'⟩ := hsame.sfree hs hempty htop
      rw [hexec] at heq
      cases heq
      exact hsame'
    | @write p i v hp hp0 hi =>
      -- a write to a payload changes no list
      have hinUse := hsame.opened.stack p (hsame.stack ▸ hp) hp0
      refine ⟨u, P, ?_, hsame.stack, hsame.opened, hsame.ready.write hinUse hi v⟩
      rw [survivors_append]
      exact hsame.run

theorem lifo_init (hs : lifo.init s) :
    ∃ r P₀, Opened r s P₀ ∧ s.stack = [] := by
  obtain ⟨⟨s₀, os, hfresh, hok, hinit⟩, hempty⟩ := hs
  obtain ⟨heap, heq, hready⟩ := Ready.initPool hfresh hok
  rw [hinit] at heq
  cases heq
  refine ⟨os.sbrked, _, ⟨hready, Lists.grounded_poolLists, fun p hp => ?_⟩, hempty⟩
  rw [hempty] at hp
  exact absurd hp List.not_mem_nil

end Runs

/-- **The LIFO discipline.** In every run of a client that frees only the latest result it still
has, from the pool as the first call sets it up: the heap holds the lists that the calls of
`smalloc` whose results have not been freed would have made alone; `sfree` of the latest result
returns; and so do any further `smalloc` and the `sfree` of its result, which restore every list. -/
theorem lifo_restores {s t : Stacked} {es : List Event} (hs : lifo.init s) (h : lifo.Run s es t) :
    (∃ u, lifo.Run s (survivors es) u ∧ u.stack = t.stack ∧
      ∀ i, ∃ L, t.heap.blocks i = some L ∧ u.heap.blocks i = some L) ∧
    (∀ p stack, t.stack = p :: stack → (t.heap.sfree p).isSome) ∧
    ∀ os size, t.heap.Served os size → ∃ ret heap heap', t.heap.smalloc os size = some (ret, heap) ∧
      heap.sfree ret = some heap' ∧ ∀ i, heap'.blocks i = t.heap.blocks i := by
  obtain ⟨r, P₀, hopen, hempty⟩ := lifo_init hs
  obtain ⟨u, P, hsame⟩ := SameLists.of_run hopen hempty h
  refine ⟨⟨u, hsame.run, hsame.stack, fun i => ⟨P i, ?_, ?_⟩⟩, fun p stack htop => ?_,
    fun os size hserved => ?_⟩
  · exact hsame.ready.repr.blocks_eq i
  · exact hsame.opened.ready.repr.blocks_eq i
  · obtain ⟨heap, heq, -⟩ := hsame.sfree hopen hempty htop
    rw [heq]
    rfl
  · obtain ⟨heap, heq, hready⟩ := hsame.ready.smalloc hserved
    obtain ⟨heap', heq', hready'⟩ := hsame.ready.sfree_smalloc hsame.opened.grounded hserved hready
      (smalloc_allocates P os size)
    refine ⟨_, heap, heap', heq, heq', fun i => ?_⟩
    rw [hready'.repr.blocks_eq, hsame.ready.repr.blocks_eq]

/-- The theorem at the run of `smalloc(1)` and the `sfree` of its result. -/
theorem lifo_restores_sample :
    ∃ s es t, lifo.init s ∧ lifo.Run s es t ∧ es.length = 2 ∧
      ∃ u, lifo.Run s [] u ∧ ∀ i, t.heap.blocks i = u.heap.blocks i := by
  have hok : sampleAnswers.SbrkOk := ⟨rfl, by decide⟩
  obtain ⟨heap, hinit, hready⟩ := Ready.initPool freshHeap_fresh hok
  have hs : lifo.init ⟨heap, []⟩ := ⟨⟨freshHeap, sampleAnswers, freshHeap_fresh, hok, hinit⟩, rfl⟩
  have hserved : heap.Served sampleAnswers 1 := sampleAnswers_served (by decide)
  obtain ⟨heap₁, heq₁, -⟩ := hready.smalloc hserved
  have hrun₁ := System.Run.nil.snoc
    (show lifo.step ⟨heap, []⟩ _ _ from LifoStep.smalloc hserved heq₁)
  obtain ⟨heap₂, heq₂⟩ := Option.isSome_iff_exists.mp
    ((lifo_restores hs hrun₁).2.1 _ [] rfl)
  have hrun₂ := hrun₁.snoc (show lifo.step _ _ _ from LifoStep.sfree rfl heq₂)
  -- nothing survives
  obtain ⟨⟨u, hrun, -, hlists⟩, -⟩ := lifo_restores hs hrun₂
  refine ⟨_, _, _, hs, hrun₂, rfl, u, hrun, fun i => ?_⟩
  obtain ⟨L, h1, h2⟩ := hlists i
  rw [h1, h2]

end OsHomework.Malloc3
