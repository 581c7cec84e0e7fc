import OsHomework.Malloc3.Pool

/-!
# The calls of `malloc_3` on the lists

What `sfree`, the pool initialisation and the two cases of `smalloc` do to a heap that holds the
lists `P`, as one lemma each. A mapping is assumed to come from a fresh region (`Fresh`), the pool
from a successful `sbrk` (`PoolAnswers`).
-/

namespace OsHomework.Malloc3

variable {s : Heap} {P : Lists} {G : Set ℕ} {i : Slot} {a r n : ℕ} {b : Blk}

/-! ### Freeing -/

/-- `sfree` of a pool block in use. -/
theorem Heap.Repr.sfree_order {k : ℕ} {P' : Lists} (h : s.Repr P) (hsized : P.Sized)
    (hb : b ∈ P (.order k)) (hfree : b.isFree = false) (hP : P.free (.order k) b = some P') :
    ∃ s', s.sfree b.payload = some s' ∧ s'.Repr P' ∧ Frame P.addrs s s' := by
  have hbH := Lists.addr_mem hb
  have hnode := h.node _ b hb
  obtain ⟨hk, hsize⟩ := hsized k b hb
  have hpool : ¬ (size128K < MD.size s.mem b.addr ∨ MD.isMmap s.mem b.addr = true) := by
    rw [hnode.size, hnode.isMmap, hsize]
    have := sizeAt_le hk
    simp only [reduceCtorEq, decide_false, Bool.false_eq_true, or_false]
    omega
  -- the flag is written first
  set s₁ := s.setMem (metadata.set .is_free s.mem b.addr 1) with hs₁
  have hrepr₁ : s₁.Repr (P.mark (.order k) b.addr true) := h.mark hb true
  have hb₁ : ({ b with isFree := true } : Blk) ∈ P.mark (.order k) b.addr true (.order k) :=
    Lists.mem_mark.mpr ⟨b, hb, (if_pos ⟨rfl, rfl⟩).symm⟩
  have hsize₁ : MD.size s₁.mem b.addr = b.size := (hrepr₁.node _ _ hb₁).size
  have hframe₁ : Frame P.addrs s s₁ := .set_field hbH
  have hneigh : s₁.findNeighboringBlock_ChallengeOne b.addr = b.addr ^^^ b.size := by
    rw [Heap.findNeighboringBlock_ChallengeOne, hsize₁]
  have heq : s.sfree b.payload = if b.size = size128K then some s₁
      else if MD.isFree s₁.mem (b.addr ^^^ b.size) = true
        then Heap.mergeLoop wordLimit b.addr (b.addr ^^^ b.size) s₁ else some s₁ := by
    rw [Heap.sfree, if_neg b.payload_ne_zero]
    simp only [Blk.payload_sub, hnode.isFree, hfree, Bool.false_eq_true, if_false, if_neg hpool,
      ← hs₁, hsize₁, hneigh]
  rw [Lists.free] at hP
  split_ifs at hP with hlast
  · rw [heq, if_pos hlast]
    exact ⟨s₁, rfl, Option.some.inj hP ▸ hrepr₁, hframe₁⟩
  · rw [heq, if_neg hlast]
    obtain ⟨s', hloop, hrepr, hframe⟩ := hrepr₁.mergeLoop (hsized.mark _ _ _) hb₁
      (show maxOrder + 1 ≤ wordLimit by decide) hP
    have hframe' : Frame P.addrs s s' := hframe₁.trans (hframe.mono (Lists.addrs_mark).subset)
    by_cases hn : MD.isFree s₁.mem (b.addr ^^^ b.size) = true
    · rw [if_pos hn]
      exact ⟨s', hloop, hrepr, hframe'⟩
    · -- the loop would be left at once
      have hstop : Heap.mergeLoop wordLimit b.addr (b.addr ^^^ b.size) s₁ = some s₁ := by
        rw [show wordLimit = (wordLimit - 1) + 1 from rfl, Heap.mergeLoop, if_neg]
        rw [Bool.and_eq_true]
        exact fun hcond => hn hcond.1
      rw [if_neg hn]
      obtain rfl : s₁ = s' := Option.some.inj (hstop.symm.trans hloop)
      exact ⟨s₁, rfl, hrepr, hframe'⟩

/-- `sfree` of a mapped block. -/
theorem Heap.Repr.sfree_mapped (h : s.Repr P) (hb : b ∈ P .mapped) (hfree : b.isFree = false) :
    ∃ s', s.sfree b.payload = some s' ∧ s'.Repr (P.remove .mapped b.addr) ∧
      s'.firstMalloc = s.firstMalloc ∧ s'.regions = s.regions.erase (b.addr, b.size) ∧
      ∀ x, (∀ a ∈ P.addrs, x < a ∨ a + metadataSize ≤ x) → s'.mem x = s.mem x := by
  have hbH := Lists.addr_mem hb
  have hnode := h.node _ b hb
  obtain ⟨s₁, heq₁, hrepr₁, hfl₁, hframe₁⟩ := h.delMD hb
  have hsize₁ : MD.size s₁.mem b.addr = b.size := hfl₁.node.size
  refine ⟨s₁.munmap b.addr b.size, ?_, ⟨hrepr₁.apart, hrepr₁.list, hrepr₁.node, hrepr₁.once⟩,
    hframe₁.firstMalloc, ?_, hframe₁.bytes⟩
  · have hmapped : size128K < MD.size s.mem b.addr ∨ MD.isMmap s.mem b.addr = true :=
      Or.inr hnode.isMmap
    rw [Heap.sfree, if_neg b.payload_ne_zero]
    simp only [Blk.payload_sub, hnode.isFree, hfree, Bool.false_eq_true, if_false, if_pos hmapped,
      heq₁, Option.bind_eq_bind, Option.bind_some, hsize₁]
    rfl
  · show s₁.regions.erase (b.addr, b.size) = _
    rw [hframe₁.regions]

/-! ### The pool -/

/-- The first `n` blocks of 128 KiB from `base` on, all free. -/
def poolLists (base n : ℕ) : Lists
  | .order k => if k = maxOrder
      then (List.range n).map fun j => ⟨base + j * size128K, size128K, true⟩ else []
  | .mapped => []

theorem poolLists_maxOrder (base n : ℕ) : poolLists base n (.order maxOrder)
    = (List.range n).map fun j => ⟨base + j * size128K, size128K, true⟩ := by
  rw [poolLists, if_pos rfl]

theorem poolLists_of_ne (base n : ℕ) (hi : i ≠ .order maxOrder) : poolLists base n i = [] := by
  cases i with
  | mapped => rfl
  | order k => exact if_neg fun hk => hi (congrArg Slot.order hk)

/-- The largest block in a sorted list is inserted at its end. -/
theorem orderedInsert_last {L : List Blk} (h : ∀ c ∈ L, c.addr < b.addr) :
    L.orderedInsert (fun x y => x.addr < y.addr) b = L ++ [b] := by
  induction L with
  | nil => rfl
  | cons c L ih =>
    have hc : ¬ b.addr < c.addr := (h c List.mem_cons_self).asymm
    rw [List.orderedInsert_of_not_le (r := fun x y : Blk => x.addr < y.addr) _ hc,
      ih fun d hd => h d (List.mem_cons_of_mem c hd), List.cons_append]

theorem poolLists_succ (base n : ℕ) :
    (poolLists base n).insert (.order maxOrder) ⟨base + n * size128K, size128K, true⟩
      = poolLists base (n + 1) := by
  have hlast : ∀ c ∈ (List.range n).map fun j => (⟨base + j * size128K, size128K, true⟩ : Blk),
      c.addr < base + n * size128K := by
    intro c hc
    obtain ⟨j, hj, rfl⟩ := List.mem_map.mp hc
    have := Nat.mul_lt_mul_of_pos_right (List.mem_range.mp hj) (show 0 < size128K by decide)
    show base + j * size128K < base + n * size128K
    omega
  funext i
  by_cases hi : i = .order maxOrder
  · rw [hi, Lists.insert, Function.update_self, poolLists_maxOrder, poolLists_maxOrder,
      orderedInsert_last hlast, List.range_succ, List.map_append, List.map_singleton]
  · rw [Lists.insert, Function.update_of_ne hi, poolLists_of_ne base n hi, poolLists_of_ne _ _ hi]

theorem mem_poolLists {base : ℕ} :
    b ∈ poolLists base n i ↔
      i = .order maxOrder ∧ ∃ j < n, b = ⟨base + j * size128K, size128K, true⟩ := by
  by_cases hi : i = .order maxOrder
  · simp [hi, poolLists_maxOrder, eq_comm]
  · simp [hi, poolLists_of_ne base n hi]

/-- The loop of the first `smalloc`, from its `n`-th round on. -/
theorem Heap.Repr.initLoop {base : ℕ} (m : ℕ) (h : s.Repr (poolLists base n)) (hG : Apart G)
    (hgrid : ∀ j < n + m, base + j * size128K ∈ G) :
    ∃ s', Heap.initLoop m (base + n * size128K) s = some s' ∧ s'.Repr (poolLists base (n + m)) ∧
      Frame G s s' := by
  induction m generalizing n s with
  | zero => exact ⟨s, rfl, h, .refl⟩
  | succ m ih =>
    have haG : base + n * size128K ∈ G := hgrid n (by omega)
    have hPG : (poolLists base n).addrs ⊆ G := by
      rintro _ ⟨i, b, hb, rfl⟩
      obtain ⟨-, j, hj, rfl⟩ := mem_poolLists.mp hb
      exact hgrid j (by omega)
    have hnotMem : base + n * size128K ∉ (poolLists base n).addrs := by
      rintro ⟨i, b, hb, heq⟩
      obtain ⟨-, j, hj, rfl⟩ := mem_poolLists.mp hb
      have := Nat.mul_lt_mul_of_pos_right hj (show 0 < size128K by decide)
      simp only at heq
      omega
    have hap : Apart (Insert.insert (base + n * size128K) (poolLists base n).addrs) :=
      hG.mono (Set.insert_subset haG hPG)
    set m₁ := metaDataInit s.mem (base + n * size128K) size128K true 0 0
      (base + n * size128K + metadataSize) with hm₁
    have hinit : (s.setMem m₁).Repr (poolLists base n) :=
      h.of_apart hap hnotMem fun _ => metaDataInit_apply_out
    have hfl : Floating m₁ (poolLists base n) (.order maxOrder)
        ⟨base + n * size128K, size128K, true⟩ :=
      .metaDataInit maxOrder hap hnotMem (by decide)
    obtain ⟨s₂, heq₂, hrepr₂, hframe₂⟩ := hinit.addMD hfl
    rw [poolLists_succ] at hrepr₂
    obtain ⟨s₃, heq₃, hrepr₃, hframe₃⟩ := ih hrepr₂ fun j hj => hgrid j (by omega)
    have hframe₁ : Frame G s (s.setMem m₁) := .metaDataInit haG
    refine ⟨s₃, ?_, ?_, (hframe₁.trans (hframe₂.mono (Set.insert_subset haG hPG))).trans hframe₃⟩
    · have hnext : base + n * size128K + size128K = base + (n + 1) * size128K := by
        rw [Nat.succ_mul, Nat.add_assoc]
      have hadd : (s.setMem m₁).addMD (.order maxOrder) (base + n * size128K) = some s₂ := heq₂
      rw [Heap.initLoop]
      simp only [← hm₁, hadd, Option.bind_eq_bind, Option.bind_some, hnext]
      exact heq₃
    · rwa [show n + (m + 1) = n + 1 + m by omega]

/-! ### Mappings -/

/-- The mapping case of `smalloc`, on a place apart from all headers. -/
theorem Heap.Repr.smallocMapped (h : s.Repr P) {os : Answers} {tot : ℕ}
    (hap : Apart (Insert.insert os.mmapped P.addrs)) (hnew : os.mmapped ∉ P.addrs)
    (hok : os.mmapped ≠ failed) (htot : tot < wordLimit) :
    ∃ s', s.smallocMapped os tot = some (os.mmapped + metadataSize, s') ∧
      s'.Repr (P.insert .mapped ⟨os.mmapped, tot, false⟩) ∧ s'.firstMalloc = s.firstMalloc ∧
      s'.regions = (os.mmapped, tot) :: s.regions ∧
      ∀ x, (∀ a ∈ Insert.insert os.mmapped P.addrs, x < a ∨ a + metadataSize ≤ x) →
        s'.mem x = s.mem x := by
  have hrH : os.mmapped ∈ Insert.insert os.mmapped P.addrs := Set.mem_insert _ _
  have hgrant : s.grant os.mmapped tot = { s with regions := (os.mmapped, tot) :: s.regions } :=
    if_neg hok
  set m₁ := metaDataInit s.mem os.mmapped tot false 0 0 (os.mmapped + metadataSize) with hm₁
  set m₂ := metadata.set .is_mmap m₁ os.mmapped 1 with hm₂
  set s₂ : Heap := (s.grant os.mmapped tot).setMem m₂ with hs₂
  have hout : ∀ x, x < os.mmapped ∨ os.mmapped + metadataSize ≤ x → m₂ x = s.mem x :=
    fun x hx => (Layout.set_apply_out hx).trans (metaDataInit_apply_out hx)
  have hrepr₂ : s₂.Repr P := by
    obtain ⟨h1, h2, h3, h4⟩ := h.of_apart hap hnew hout
    rw [hs₂, hgrant]
    exact ⟨h1, h2, h3, h4⟩
  -- a header of the pool but for its last field
  obtain ⟨h1, h2, h3, h4, -⟩ := metaDataInit_get s.mem false (hap.pos _ hrH) htot (hap.lt _ hrH)
  have hne : ∀ {f : Field}, Field.is_mmap ≠ f →
      metadata.get f m₂ os.mmapped = metadata.get f m₁ os.mmapped := Layout.get_set_of_ne
  have hfl : Floating s₂.mem P .mapped ⟨os.mmapped, tot, false⟩ := by
    refine ⟨hap, hnew, ⟨(hne (by decide)).trans h1, ?_, ?_⟩, (hne (by decide)).trans h3,
      (hne (by decide)).trans h4⟩
    · rw [← h2]
      show decide (metadata.get .is_free m₂ os.mmapped ≠ 0) = decide (metadata.get _ _ _ ≠ 0)
      rw [hne (by decide)]
    · show decide (metadata.get .is_mmap m₂ os.mmapped ≠ 0) = _
      rw [hm₂, Layout.get_set_same (show 1 < 256 ^ 1 by decide)]
      rfl
  obtain ⟨s₃, heq₃, hrepr₃, hframe₃⟩ := hrepr₂.addMD hfl
  have hadd : s₂.addMD .mapped os.mmapped = some s₃ := heq₃
  have haddr : MD.address s₃.mem os.mmapped = os.mmapped + metadataSize :=
    (hrepr₃.list .mapped).address _ (List.mem_map_of_mem (Lists.self_mem_insert P .mapped _))
  refine ⟨s₃, ?_, hrepr₃, ?_, ?_, fun x hx => (hframe₃.bytes x hx).trans (hout x (hx _ hrH))⟩
  · have hmem : (s.grant os.mmapped tot).mem = s.mem := by rw [hgrant]
    rw [Heap.smallocMapped]
    simp only [hmem, ← hm₁, ← hm₂, ← hs₂, hadd, Option.bind_eq_bind, Option.bind_some, haddr]
    rfl
  · rw [hframe₃.firstMalloc, hs₂, hgrant]
    rfl
  · rw [hframe₃.regions, hs₂, hgrant]
    rfl

/-! ### A mapping that failed -/

/-- A header whose `address` is below all others becomes the head. -/
theorem MDList.addMD_front {l : MDList} {m : Mem} {md : ℕ}
    (hlt : l.head ≠ 0 → MD.address m md < MD.address m l.head) :
    ∃ m' l', l.addMD m md = some (m', l') ∧ MD.address m' md = MD.address m md ∧
      ∀ x < md, m' x = m x := by
  by_cases hempty : l.isEmpty = true
  · exact ⟨m, ⟨md, md⟩, if_pos hempty, rfl, fun _ _ => rfl⟩
  have hhead : l.head ≠ 0 := by
    rwa [MDList.isEmpty, beq_iff_eq] at hempty
  have hscan :
      scan (MD.next m) (fun p => decide (MD.address m md < MD.address m p)) wordLimit 0 l.head
      = some (0, l.head) := by
    obtain ⟨n, hn⟩ : ∃ n, wordLimit = n + 1 := ⟨wordLimit - 1, rfl⟩
    rw [hn, scan, if_neg hhead, if_pos (decide_eq_true (hlt hhead))]
  rw [MDList.addMD, if_neg hempty, hscan]
  simp only [Option.bind_eq_bind, Option.bind_some, if_neg hhead, if_true]
  exact ⟨_, _, rfl, Layout.get_set_of_ne Field.noConfusion,
    fun x hx => Layout.set_apply_out (Or.inl hx)⟩

/-- The result of `mmap` is not checked: `(void*)-1` is taken for a header, and the address behind
it wraps around to one in the first page. -/
theorem Heap.Repr.smallocMapped_failed (h : s.Repr P) {os : Answers} (tot : ℕ)
    (hos : os.mmapped = failed) :
    ∃ s', s.smallocMapped os tot = some (metadataSize - 1, s') ∧
      ∀ x < failed, s'.mem x = s.mem x := by
  have hgrant : s.grant failed tot = s := if_pos rfl
  set m₁ := metaDataInit s.mem failed tot false 0 0 (failed + metadataSize) with hm₁
  set m₂ := metadata.set .is_mmap m₁ failed 1 with hm₂
  have hself : MD.address m₂ failed = metadataSize - 1 := by
    have hne : failed ≠ 0 := by decide
    rw [hm₂, hm₁, MD.address, Layout.get_set_of_ne Field.noConfusion, metaDataInit, if_neg hne]
    exact (Layout.get_set_of_ne Field.noConfusion).trans Layout.get_set
  have hout : ∀ x < failed, m₂ x = s.mem x := fun x hx =>
    (Layout.set_apply_out (Or.inl hx)).trans (metaDataInit_apply_out (Or.inl hx))
  have hfront : s.mappedList.head ≠ 0 →
      MD.address m₂ failed < MD.address m₂ s.mappedList.head := by
    intro hhead
    have hlist := h.list .mapped
    -- the head of a list is one of its headers
    have hmem : s.mappedList.head ∈ (P .mapped).map Blk.addr := by
      cases hL : (P .mapped).map Blk.addr with
      | nil =>
        rw [hL] at hlist
        exact absurd hlist.chain hhead
      | cons a L =>
        rw [hL] at hlist
        rw [show s.mappedList.head = a from hlist.chain.1]
        exact List.mem_cons_self
    have hlt := h.apart.lt _ (hlist.mem _ hmem)
    have hsame : MD.address m₂ s.mappedList.head = MD.address s.mem s.mappedList.head := by
      refine Layout.get_congr fun x hx => hout x (hx.2.trans_le ?_)
      rw [failed]
      exact Nat.le_sub_one_of_lt hlt
    rw [hself, hsame, hlist.address _ hmem]
    exact Nat.lt_of_lt_of_le (by decide) (Nat.le_add_left _ _)
  obtain ⟨m₃, l₃, heq, haddr, hkeep⟩ := MDList.addMD_front hfront
  rw [Heap.smallocMapped, hos, hgrant]
  simp only [← hm₁, ← hm₂, Option.bind_eq_bind]
  have hadd : (s.setMem m₂).addMD .mapped failed
      = some (((s.setMem m₂).setList l₃ .mapped).setMem m₃) := by
    rw [Heap.addMD]
    show (s.mappedList.addMD m₂ failed).bind _ = _
    rw [heq]
    rfl
  have hret : MD.address (((s.setMem m₂).setList l₃ .mapped).setMem m₃).mem failed
      = metadataSize - 1 := haddr.trans hself
  rw [hadd, Option.bind_some, hret]
  exact ⟨_, rfl, fun x hx => (hkeep x hx).trans (hout x hx)⟩

end OsHomework.Malloc3
