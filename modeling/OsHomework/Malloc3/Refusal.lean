import OsHomework.Malloc3.Ready

/-!
# Memory that the system refuses

`smalloc` compares neither the result of `sbrk` nor that of `mmap` with `(void*)-1`. The first call
clears `firstMalloc` before it asks for the pool, and lays the 32 headers out from whatever address
comes back; a call for a mapping takes whatever address comes back for a header, and returns the
address 48 bytes behind it.

A failure is clean when the caller gets `NULL` and can tell no difference otherwise
(`Heap.FailsCleanly`). No refused call fails cleanly, in any state (`refused_clean_iff`): the states
are those of runs with any answers of the system, refusals among them, and with any bytes written
in between. On the machine the headers of a refused call go to addresses that are not mapped and
the process ends there; the memory of the model takes the writes, so that what the code has in
store can be followed to the end.

Two facts about the globals carry this through all runs, and they ask nothing of the memory: the
list of mappings starts at a 64-bit address, and as long as `firstMalloc` is set, no pointer has
been handed out and the pool is empty (`Client.Inv`).
-/

namespace OsHomework.Malloc3

/-! ### Lists in any memory -/

theorem MD.next_lt (m : Mem) (p : ℕ) : MD.next m p < wordLimit :=
  (Mem.loadLE_lt m _ 8).trans_eq (by decide)

/-- A field that lies before `address`, in the header at `q` or in one below. -/
theorem MD.address_set_below {f : Field} {m : Mem} {p q v : ℕ}
    (hf : metadata.off f + metadata.width f ≤ metadata.off .address) (hp : p ≤ q) :
    MD.address (metadata.set f m p v) q = MD.address m q := by
  refine Mem.loadLE_congr fun x hx => Mem.storeLE_apply_out (Or.inr ?_)
  have := hx.1
  omega

namespace MDList

variable {l l' : MDList} {m m' : Mem} {md : ℕ}

/-- What `addMD` can do: the first node of a list, a new tail, a new head, or a node between two
others. -/
theorem addMD_cases (h : l.addMD m md = some (m', l')) :
    l.head = 0 ∧ m' = m ∧ l' = ⟨md, md⟩ ∨
    l.head ≠ 0 ∧ ∃ prevTmp nxtTmp,
      scan (MD.next m) (fun p => decide (MD.address m md < MD.address m p)) wordLimit 0 l.head
        = some (prevTmp, nxtTmp) ∧
      (m' = metadata.set .prev (metadata.set .next m prevTmp md) md prevTmp ∧ l' = ⟨l.head, md⟩ ∨
        m' = metadata.set .next m md l.head ∧ l' = ⟨md, l.tail⟩ ∨
        m' = metadata.set .prev (metadata.set .next (metadata.set .prev
          (metadata.set .next m prevTmp md) md prevTmp) md nxtTmp) nxtTmp md ∧ l' = l) := by
  rw [addMD] at h
  by_cases hempty : l.isEmpty = true
  · rw [if_pos hempty] at h
    cases h
    exact Or.inl ⟨beq_iff_eq.mp hempty, rfl, rfl⟩
  · rw [if_neg hempty] at h
    have hhead : l.head ≠ 0 := by
      rwa [isEmpty, beq_iff_eq] at hempty
    -- the search stops in front of a node, or behind the last one
    obtain ⟨⟨prevTmp, nxtTmp⟩, hscan, h⟩ := Option.bind_eq_some_iff.mp h
    refine Or.inr ⟨hhead, prevTmp, nxtTmp, hscan, ?_⟩
    simp only at h
    by_cases hlast : nxtTmp = 0
    · rw [if_pos hlast] at h
      cases h
      exact Or.inl ⟨rfl, rfl⟩
    · rw [if_neg hlast] at h
      by_cases hfirst : nxtTmp = l.head
      · rw [if_pos hfirst] at h
        cases h
        exact Or.inr (Or.inl ⟨rfl, rfl⟩)
      · rw [if_neg hfirst] at h
        cases h
        exact Or.inr (Or.inr ⟨rfl, rfl⟩)

/-- A list is not empty after an insertion. -/
theorem addMD_head_ne_zero (h : l.addMD m md = some (m', l')) (hmd : md ≠ 0) : l'.head ≠ 0 := by
  obtain ⟨-, -, rfl⟩ | ⟨hhead, prevTmp, nxtTmp, -, hcases⟩ := addMD_cases h
  · exact hmd
  · obtain ⟨-, rfl⟩ | ⟨-, rfl⟩ | ⟨-, rfl⟩ := hcases
    · exact hhead
    · exact hmd
    · exact hhead

theorem addMD_head_lt (h : l.addMD m md = some (m', l')) (hl : l.head < wordLimit)
    (hmd : md < wordLimit) : l'.head < wordLimit := by
  obtain ⟨-, -, rfl⟩ | ⟨-, prevTmp, nxtTmp, -, hcases⟩ := addMD_cases h
  · exact hmd
  · obtain ⟨-, rfl⟩ | ⟨-, rfl⟩ | ⟨-, rfl⟩ := hcases
    · exact hl
    · exact hmd
    · exact hl

/-- No insertion at `(void*)-1` changes the `address` of the header there: every other node lies
below it. -/
theorem addMD_address_failed (h : l.addMD m failed = some (m', l')) (hl : l.head < wordLimit) :
    MD.address m' failed = MD.address m failed := by
  have hnext : metadata.off .next + metadata.width .next ≤ metadata.off .address := by decide
  have hprev : metadata.off .prev + metadata.width .prev ≤ metadata.off .address := by decide
  obtain ⟨-, rfl, -⟩ | ⟨-, prevTmp, nxtTmp, hscan, hcases⟩ := addMD_cases h
  · rfl
  · -- links are 64-bit words, so no node lies above `(void*)-1`
    obtain ⟨hp, hn⟩ : prevTmp < wordLimit ∧ nxtTmp < wordLimit :=
      scan_forall (P := (· < wordLimit)) hscan (by decide) hl (MD.next_lt m)
    have hp' : prevTmp ≤ failed := Nat.le_sub_one_of_lt hp
    have hn' : nxtTmp ≤ failed := Nat.le_sub_one_of_lt hn
    obtain ⟨rfl, -⟩ | ⟨rfl, -⟩ | ⟨rfl, -⟩ := hcases
    · rw [MD.address_set_below hprev le_rfl, MD.address_set_below hnext hp']
    · rw [MD.address_set_below hnext le_rfl]
    · rw [MD.address_set_below hprev hn', MD.address_set_below hnext le_rfl,
        MD.address_set_below hprev le_rfl, MD.address_set_below hnext hp']

theorem delMD_head_lt (h : l.delMD m md = some (m', l')) (hl : l.head < wordLimit) :
    l'.head < wordLimit := by
  rw [delMD] at h
  split at h
  · cases h
    exact hl
  · obtain ⟨⟨prevTmp, currTmp⟩, -, h⟩ := Option.bind_eq_some_iff.mp h
    simp only at h
    split at h
    · cases h
      exact hl
    · simp only [Option.pure_def, Option.some.injEq, Prod.mk.injEq] at h
      -- the head stays, or its successor takes over, or the list is empty
      obtain ⟨-, rfl⟩ := h
      split
      · split
        · exact Nat.two_pow_pos 64
        · exact MD.next_lt m l.head
      · split
        · exact hl
        · exact hl

end MDList

/-! ### What no call but the first changes -/

/-- Whichever branch was taken. -/
theorem eq_or_eq_of_ite {α : Type} {c : Prop} [Decidable c] {a b x : α}
    (h : (if c then a else b) = x) : a = x ∨ b = x := by
  split at h
  · exact Or.inl h
  · exact Or.inr h

/-- `firstMalloc` is as it was, and the list of mappings starts at a 64-bit address if it did. -/
structure Heap.Kept (s s' : Heap) : Prop where
  firstMalloc : s'.firstMalloc = s.firstMalloc
  head_lt : s.mappedList.head < wordLimit → s'.mappedList.head < wordLimit

namespace Heap

variable {s s' t : Heap} {os : Answers} {i : Slot} {md p ret : ℕ}

namespace Kept

theorem refl (s : Heap) : Kept s s := ⟨rfl, id⟩

theorem trans (h : Kept s s') (h' : Kept s' t) : Kept s t where
  firstMalloc := h'.firstMalloc.trans h.firstMalloc
  head_lt hs := h'.head_lt (h.head_lt hs)

instance : Trans Kept Kept Kept := ⟨trans⟩

theorem setMem (s : Heap) (m : Mem) : Kept s (s.setMem m) := ⟨rfl, id⟩

theorem addMD (h : s.addMD i md = some s') (hmd : i = .mapped → md < wordLimit) : Kept s s' := by
  obtain ⟨⟨m, l⟩, hadd, heq⟩ := Option.bind_eq_some_iff.mp h
  cases heq
  cases i with
  | order k => exact ⟨rfl, id⟩
  | mapped => exact ⟨rfl, fun hs => MDList.addMD_head_lt hadd hs (hmd rfl)⟩

theorem addMD_order {k : ℕ} (h : s.addMD (.order k) md = some s') : Kept s s' :=
  addMD h Slot.noConfusion

theorem delMD (h : s.delMD i md = some s') : Kept s s' := by
  obtain ⟨⟨m, l⟩, hdel, heq⟩ := Option.bind_eq_some_iff.mp h
  cases heq
  cases i with
  | order k => exact ⟨rfl, id⟩
  | mapped => exact ⟨rfl, MDList.delMD_head_lt hdel⟩

theorem splitLoop {spliN index k : ℕ} (h : Heap.splitLoop md spliN index s = some (k, s')) :
    Kept s s' := by
  induction spliN generalizing index s with
  | zero =>
    cases h
    exact refl _
  | succ n ih =>
    obtain ⟨s₁, hadd, hloop⟩ := Option.bind_eq_some_iff.mp h
    calc Kept s (s.setMem _) := setMem s _
      Kept _ s₁ := addMD_order hadd
      Kept _ s' := ih hloop

theorem splitBlocks {index spliN : ℕ}
    (h : s.splitBlocks_ChallengeZero md index spliN = some s') : Kept s s' := by
  rw [splitBlocks_ChallengeZero] at h
  by_cases h0 : spliN = 0
  · rw [if_pos h0] at h
    cases h
    exact refl _
  · rw [if_neg h0] at h
    -- the block leaves its list, its upper halves enter theirs, and it comes back smaller
    obtain ⟨s₁, hdel, h⟩ := Option.bind_eq_some_iff.mp h
    obtain ⟨⟨k, s₂⟩, hloop, h⟩ := Option.bind_eq_some_iff.mp h
    calc Kept s s₁ := delMD hdel
      Kept _ s₂ := splitLoop hloop
      Kept _ (s₂.setMem _) := setMem s₂ _
      Kept _ s' := addMD_order h

theorem findExactLoop {size n i splitNum : ℕ}
    (h : Heap.findExactLoop size n i splitNum s = some (ret, s')) : Kept s s' := by
  induction n generalizing i splitNum s with
  | zero =>
    cases h
    exact refl _
  | succ n ih =>
    rw [Heap.findExactLoop] at h
    split at h
    · obtain ⟨⟨freeBlock, m⟩, -, h⟩ := Option.bind_eq_some_iff.mp h
      simp only at h
      split at h
      · -- a block was found in this order
        obtain ⟨s₁, hsplit, h⟩ := Option.bind_eq_some_iff.mp h
        cases h
        calc Kept s (s.setMem m) := setMem s m
          Kept _ s₁ := splitBlocks hsplit
          Kept _ (s₁.setMem _) := setMem s₁ _
      · exact (setMem s m).trans (ih h)
    · exact ih h

theorem smallocMapped {tot_size : ℕ} (h : s.smallocMapped os tot_size = some (ret, s'))
    (hos : os.mmapped < wordLimit) : Kept s s' := by
  rw [Heap.smallocMapped] at h
  simp only [Option.bind_eq_bind, Option.bind_eq_some_iff] at h
  obtain ⟨s₁, hadd, heq⟩ := h
  obtain ⟨-, rfl⟩ := Prod.ext_iff.mp (Option.some.inj heq)
  have hgrant : Kept s (s.grant os.mmapped tot_size) := by
    rw [grant]
    split
    · exact refl s
    · exact ⟨rfl, id⟩
  calc Kept s (s.grant os.mmapped tot_size) := hgrant
    Kept _ ((s.grant os.mmapped tot_size).setMem _) := setMem _ _
    Kept _ s₁ := addMD hadd fun _ => hos

/-- One round of a merging loop takes two blocks out and puts one in, all of them in the pool. -/
theorem round {i j res neighMD new : ℕ} {m : Mem} {s₁ s₂ s₃ : Heap}
    (hdel₁ : s.delMD (.order i) res = some s₁) (hdel₂ : s₁.delMD (.order i) neighMD = some s₂)
    (hadd : (s₂.setMem m).addMD (.order j) new = some s₃) : Kept s s₃ :=
  calc Kept s s₁ := delMD hdel₁
    Kept _ s₂ := delMD hdel₂
    Kept _ (s₂.setMem m) := setMem s₂ m
    Kept _ s₃ := addMD_order hadd

theorem mergeLoop {fuel res neighMD : ℕ} (h : Heap.mergeLoop fuel res neighMD s = some s') :
    Kept s s' := by
  induction fuel generalizing res neighMD s with
  | zero => cases h
  | succ n ih =>
    rw [Heap.mergeLoop] at h
    split at h
    · simp only [Option.bind_eq_bind, Option.bind_eq_some_iff] at h
      obtain ⟨i, -, s₁, hdel₁, s₂, hdel₂, s₃, hadd, h⟩ := h
      have hkept : Kept s s₃ := round hdel₁ hdel₂ hadd
      obtain h | h := eq_or_eq_of_ite h
      · cases h
        exact hkept
      · exact hkept.trans (ih h)
    · cases h
      exact refl _

theorem sfree (h : s.sfree p = some s') : Kept s s' := by
  rw [Heap.sfree] at h
  split at h
  · cases h
    exact refl _
  · simp only at h
    split at h
    · cases h
      exact refl _
    · split at h
      · -- a mapped block leaves its list and gives its region back
        obtain ⟨s₁, hdel, h⟩ := Option.bind_eq_some_iff.mp h
        cases h
        exact (delMD hdel).trans ⟨rfl, id⟩
      · split at h
        · cases h
          exact setMem s _
        · split at h
          · exact (setMem s _).trans (mergeLoop h)
          · cases h
            exact setMem s _

theorem growLoop {current new_size fuel neighMd : ℕ} {assigned : Option ℕ}
    (h : Heap.growLoop current new_size fuel neighMd s = some (assigned, s')) : Kept s s' := by
  induction fuel generalizing neighMd s with
  | zero => cases h
  | succ n ih =>
    rw [Heap.growLoop] at h
    split at h
    · simp only [Option.bind_eq_bind, Option.bind_eq_some_iff] at h
      obtain ⟨i, -, s₁, hdel₁, s₂, hdel₂, h⟩ := h
      split at h
      · cases h
      · obtain ⟨s₃, hadd, h⟩ := Option.bind_eq_some_iff.mp h
        have hkept : Kept s s₃ := round hdel₁ hdel₂ hadd
        split at h
        · cases h
          exact hkept
        · exact hkept.trans (ih h)
    · cases h
      exact refl _

theorem releaseMapped {current : ℕ} (h : s.releaseMapped current = some s') : Kept s s' := by
  rw [Heap.releaseMapped] at h
  split at h
  · have hmunmap : Kept s (s.munmap current (MD.size s.mem current)) := ⟨rfl, id⟩
    exact hmunmap.trans (delMD h)
  · cases h
    exact refl _

theorem initLoop {n res : ℕ} (h : Heap.initLoop n res s = some s') : Kept s s' := by
  induction n generalizing res s with
  | zero =>
    cases h
    exact refl _
  | succ n ih =>
    obtain ⟨s₁, hadd, hloop⟩ := Option.bind_eq_some_iff.mp h
    calc Kept s (s.setMem _) := setMem s _
      Kept _ s₁ := addMD_order hadd
      Kept _ s' := ih hloop

end Kept

/-! ### `smalloc`, whatever the system answers -/

/-- Setting up the pool clears `firstMalloc` and leaves no mapping. -/
theorem initPool_flag (h : s.initPool os = some s') :
    s'.firstMalloc = false ∧ s'.mappedList = MDList.empty := by
  rw [initPool] at h
  simp only [Option.bind_eq_bind, Option.bind_eq_some_iff] at h
  obtain ⟨s₁, hloop, heq⟩ := h
  obtain rfl := Option.some.inj heq
  refine ⟨(Kept.initLoop hloop).firstMalloc.trans ?_, rfl⟩
  show (grant _ _ _).firstMalloc = false
  rw [grant]
  split
  · rfl
  · rfl

/-- The loop over the 32 blocks leaves the list of the largest order with some header, at whatever
addresses it lays them out. -/
theorem initLoop_head_ne_zero {n res : ℕ} (h : Heap.initLoop (n + 1) res s = some s')
    (hlast : res + n * size128K ≠ 0) : (s'.mdListArr maxOrder).head ≠ 0 := by
  induction n generalizing res s with
  | zero =>
    -- the last header is the one at an address that is surely not null
    obtain ⟨s₁, hadd, heq⟩ := Option.bind_eq_some_iff.mp h
    cases heq
    obtain ⟨⟨m, l⟩, hlist, heq⟩ := Option.bind_eq_some_iff.mp hadd
    cases heq
    have hhead : l.head ≠ 0 := MDList.addMD_head_ne_zero hlist (by simpa using hlast)
    have hl := list_setList_self (s := s) (i := .order maxOrder) l
    exact ne_of_eq_of_ne (congrArg MDList.head hl) hhead
  | succ n ih =>
    obtain ⟨s₁, -, hloop⟩ := Option.bind_eq_some_iff.mp h
    rw [Nat.succ_mul] at hlast
    exact ih hloop (by omega)

theorem initPool_head_ne_zero (h : s.initPool os = some s') :
    (s'.mdListArr maxOrder).head ≠ 0 := by
  rw [initPool] at h
  simp only [Option.bind_eq_bind, Option.bind_eq_some_iff] at h
  obtain ⟨s₁, hloop, heq⟩ := h
  obtain rfl := Option.some.inj heq
  have hhead : (s₁.mdListArr maxOrder).head ≠ 0 :=
    initLoop_head_ne_zero (n := 31) hloop (Nat.ne_of_gt (Nat.add_pos_right _ (by decide)))
  exact hhead

/-- A search that answers `NULL` has left the lists alone. -/
theorem findExactLoop_zero {size n i splitNum : ℕ}
    (h : Heap.findExactLoop size n i splitNum s = some (0, s')) : s'.mdListArr = s.mdListArr := by
  induction n generalizing i splitNum s with
  | zero =>
    cases h
    rfl
  | succ n ih =>
    rw [Heap.findExactLoop] at h
    split at h
    · obtain ⟨⟨freeBlock, m⟩, -, h⟩ := Option.bind_eq_some_iff.mp h
      simp only at h
      split at h
      · -- a block was found, and its payload lies behind a header
        obtain ⟨s₁, -, h⟩ := Option.bind_eq_some_iff.mp h
        have hret := (Prod.ext_iff.mp (Option.some.inj h)).1
        exact absurd hret (Nat.succ_ne_zero _)
      · exact (ih h).trans rfl
    · exact ih h

theorem smallocMapped_mdListArr {tot_size : ℕ}
    (h : s.smallocMapped os tot_size = some (ret, s')) : s'.mdListArr = s.mdListArr := by
  rw [Heap.smallocMapped] at h
  simp only [Option.bind_eq_bind, Option.bind_eq_some_iff] at h
  obtain ⟨s₁, hadd, heq⟩ := h
  obtain ⟨-, rfl⟩ := Prod.ext_iff.mp (Option.some.inj heq)
  obtain ⟨⟨m, l⟩, -, heq⟩ := Option.bind_eq_some_iff.mp hadd
  obtain rfl := Option.some.inj heq
  show (grant _ _ _).mdListArr = _
  rw [grant]
  split
  · rfl
  · rfl

/-- A refused mapping: the header is written at `(void*)-1`, and the result is the address 48 bytes
behind it, modulo the address space. -/
theorem smallocMapped_refused {tot_size : ℕ} (h : s.smallocMapped os tot_size = some (ret, s'))
    (hos : os.mmapped = failed) (hs : s.mappedList.head < wordLimit) : ret = metadataSize - 1 := by
  have hne : failed ≠ 0 := by decide
  rw [Heap.smallocMapped, hos, grant, if_pos rfl] at h
  simp only [Option.bind_eq_bind, Option.bind_eq_some_iff] at h
  obtain ⟨s₁, hadd, heq⟩ := h
  obtain ⟨rfl, -⟩ := Prod.ext_iff.mp (Option.some.inj heq)
  obtain ⟨⟨m, l⟩, hlist, heq⟩ := Option.bind_eq_some_iff.mp hadd
  obtain rfl := Option.some.inj heq
  show MD.address m failed = _
  -- the header still says what was written before it entered the list
  apply (MDList.addMD_address_failed hlist hs).trans
  show metadata.get .address (metadata.set .is_mmap (metaDataInit s.mem failed tot_size false 0 0
    (failed + metadataSize)) failed 1) failed = _
  rw [Layout.get_set_of_ne Field.noConfusion, metaDataInit, if_neg hne]
  exact (Layout.get_set_of_ne Field.noConfusion).trans Layout.get_set

/-- What `smalloc` does once the pool is there. -/
theorem smalloc_cases {size : ℕ} (h : s.smalloc os size = some (ret, s')) :
    ∃ s₁, (if s.firstMalloc then s.initPool os else some s) = some s₁ ∧
      (invalidSize size = true ∧ ret = 0 ∧ s' = s₁ ∨
        s₁.findExactSizeBlock_ChallengeZero (metadataSize + size) = some (ret, s') ∧
          metadataSize + size ≤ size128K ∨
        s₁.smallocMapped os (metadataSize + size) = some (ret, s')) := by
  obtain ⟨s₁, hpool, h⟩ : ∃ s₁, (if s.firstMalloc then s.initPool os else some s) = some s₁ ∧
      (if invalidSize size then pure (0, s₁)
      else if (metadataSize + size) % wordLimit ≤ size128K then
        s₁.findExactSizeBlock_ChallengeZero ((metadataSize + size) % wordLimit)
      else s₁.smallocMapped os ((metadataSize + size) % wordLimit)) = some (ret, s') := by
    rw [Heap.smalloc] at h
    by_cases hfirst : s.firstMalloc = true
    · simp only [if_pos hfirst] at h ⊢
      exact Option.bind_eq_some_iff.mp h
    · simp only [if_neg hfirst] at h ⊢
      exact ⟨s, rfl, h⟩
  refine ⟨s₁, hpool, ?_⟩
  cases hvalid : invalidSize size with
  | true =>
    rw [hvalid, if_pos rfl] at h
    obtain ⟨rfl, rfl⟩ := Prod.ext_iff.mp (Option.some.inj h)
    exact Or.inl ⟨rfl, rfl, rfl⟩
  | false =>
    -- a valid size does not wrap with the header added
    rw [hvalid, if_neg Bool.false_ne_true, Nat.mod_eq_of_lt (Ready.lt_of_valid hvalid)] at h
    by_cases hsmall : metadataSize + size ≤ size128K
    · rw [if_pos hsmall] at h
      exact Or.inr (Or.inl ⟨h, hsmall⟩)
    · rw [if_neg hsmall] at h
      exact Or.inr (Or.inr h)

theorem pool_head_lt (h : (if s.firstMalloc then s.initPool os else some s) = some s')
    (hs : s.mappedList.head < wordLimit) : s'.mappedList.head < wordLimit := by
  obtain h | h := eq_or_eq_of_ite h
  · rw [(initPool_flag h).2]
    exact Nat.two_pow_pos 64
  · cases h
    exact hs

/-- After any `smalloc` the flag is cleared, and the list of mappings starts at a 64-bit address if
it did. -/
theorem smalloc_flag {size : ℕ} (h : s.smalloc os size = some (ret, s'))
    (hos : os.mmapped < wordLimit) :
    s'.firstMalloc = false ∧ (s.mappedList.head < wordLimit → s'.mappedList.head < wordLimit) := by
  obtain ⟨s₁, hpool, hcases⟩ := smalloc_cases h
  have hflag : s₁.firstMalloc = false := by
    by_cases hfirst : s.firstMalloc = true
    · rw [if_pos hfirst] at hpool
      exact (initPool_flag hpool).1
    · rw [if_neg hfirst] at hpool
      cases hpool
      exact Bool.eq_false_iff.mpr hfirst
  -- behind the pool no branch touches the flag
  have hkept : Kept s₁ s' := by
    obtain ⟨-, -, rfl⟩ | ⟨hfind, -⟩ | hmap := hcases
    · exact Kept.refl _
    · exact Kept.findExactLoop hfind
    · exact Kept.smallocMapped hmap hos
  exact ⟨hkept.firstMalloc.trans hflag, fun hs => hkept.head_lt (pool_head_lt hpool hs)⟩

/-- A refused mapping is not reported to the caller. -/
theorem smalloc_refused {size : ℕ} (h : s.smalloc os size = some (ret, s'))
    (hvalid : invalidSize size = false) (hlarge : size128K < metadataSize + size)
    (hos : os.mmapped = failed) (hs : s.mappedList.head < wordLimit) : ret = metadataSize - 1 := by
  obtain ⟨s₁, hpool, hcases⟩ := smalloc_cases h
  obtain ⟨hbad, -⟩ | ⟨-, hsmall⟩ | hmap := hcases
  · exact absurd (hvalid.symm.trans hbad) Bool.false_ne_true
  · exact absurd hlarge (not_lt.mpr hsmall)
  · exact smallocMapped_refused hmap hos (pool_head_lt hpool hs)

/-- A first `smalloc` that answers `NULL` leaves headers in the pool. -/
theorem smalloc_zero_head {size : ℕ} (h : s.smalloc os size = some (0, s'))
    (hfirst : s.firstMalloc = true) : (s'.mdListArr maxOrder).head ≠ 0 := by
  obtain ⟨s₁, hpool, hcases⟩ := smalloc_cases h
  rw [if_pos hfirst] at hpool
  -- with `NULL` as the result, the lists are those of the pool
  have hsame : s'.mdListArr = s₁.mdListArr := by
    obtain ⟨-, -, rfl⟩ | ⟨hfind, -⟩ | hmap := hcases
    · rfl
    · exact findExactLoop_zero hfind
    · exact smallocMapped_mdListArr hmap
  rw [hsame]
  exact initPool_head_ne_zero hpool

theorem Kept.smalloc {size : ℕ} (h : s.smalloc os size = some (ret, s'))
    (hos : os.mmapped < wordLimit) (hlater : s.firstMalloc = false) : Kept s s' := by
  obtain ⟨hflag, hhead⟩ := smalloc_flag h hos
  exact ⟨hflag.trans hlater.symm, hhead⟩

theorem Kept.sreallocTraced {junk oldp size : ℕ} {copy : Option Copy}
    (h : s.sreallocTraced os junk oldp size = some (copy, ret, s')) (hos : os.mmapped < wordLimit)
    (hlater : s.firstMalloc = false) : Kept s s' := by
  rw [Heap.sreallocTraced] at h
  obtain h | h := eq_or_eq_of_ite h
  · cases h
    exact refl _
  obtain h | h := eq_or_eq_of_ite h
  · -- the pointer was `NULL`
    obtain ⟨x, hsmalloc, heq⟩ := Option.map_eq_some_iff.mp h
    cases heq
    exact smalloc hsmalloc hos hlater
  obtain h | h := eq_or_eq_of_ite h
  · cases h
    exact refl _
  obtain h | h := eq_or_eq_of_ite h
  · -- the block has grown in place
    simp only [Option.bind_eq_bind, Option.bind_eq_some_iff] at h
    obtain ⟨⟨assigned, s₁⟩, hgrow, s₂, hrelease, heq⟩ := h
    obtain rfl := congrArg (fun x => x.2.2) (Option.some.inj heq)
    calc Kept s s₁ := growLoop hgrow
      Kept _ (s₁.setMem _) := setMem s₁ _
      Kept _ _ := releaseMapped hrelease
  · -- the block is moved, or stays if there is no other
    simp only [Option.bind_eq_bind, Option.bind_eq_some_iff] at h
    obtain ⟨⟨newMD, s₁⟩, hsmalloc, h⟩ := h
    have hkept : Kept s s₁ := (setMem s _).trans (smalloc hsmalloc hos hlater)
    obtain h | h := eq_or_eq_of_ite h
    · obtain rfl := congrArg (fun x => x.2.2) (Option.some.inj h)
      exact hkept.trans (setMem s₁ _)
    · obtain ⟨s₂, hrelease, heq⟩ := Option.bind_eq_some_iff.mp h
      obtain rfl := congrArg (fun x => x.2.2) (Option.some.inj heq)
      calc Kept s s₁ := hkept
        Kept _ (s₁.setMem _) := setMem s₁ _
        Kept _ _ := releaseMapped hrelease

end Heap

/-- A call that enters `smalloc` returns what that returns; `scalloc` may write to the payload
then. -/
theorem Call.exec_request {c : Call} {s s' : Heap} {os : Answers} {size ret : ℕ}
    (hreq : c.request = some (os, size)) (h : c.exec s = some (ret, s')) :
    ∃ s₁, s.smalloc os size = some (ret, s₁) ∧ (s' = s₁ ∨ ret ≠ 0 ∧ ∃ m, s' = s₁.setMem m) := by
  cases c with
  | smalloc os' size' =>
    cases hreq
    exact ⟨s', h, Or.inl rfl⟩
  | scalloc os' num size' =>
    rw [request] at hreq
    split at hreq
    · cases hreq
    · rename_i hok
      cases hreq
      simp only [not_or] at hok
      rw [exec, Heap.scalloc] at h
      simp only [hok, or_self, if_false, Option.bind_eq_bind, Option.bind_eq_some_iff] at h
      obtain ⟨⟨adrs, s₁⟩, hsmalloc, h⟩ := h
      -- `scalloc` clears the payload only if it got one
      by_cases hnull : adrs = 0
      · simp only [if_pos hnull] at h
        cases h
        exact ⟨_, hnull ▸ hsmalloc, Or.inl rfl⟩
      · simp only [if_neg hnull] at h
        obtain ⟨rfl, rfl⟩ := Prod.ext_iff.mp (Option.some.inj h)
        exact ⟨s₁, hsmalloc, Or.inr ⟨hnull, _, rfl⟩⟩
  | sfree p => cases hreq

/-- A call that does not enter `smalloc` and is no `sfree` was refused by `scalloc` itself. -/
theorem Call.exec_of_request_none {os : Answers} {num size ret : ℕ} {s s' : Heap}
    (hreq : (Call.scalloc os num size).request = none)
    (h : (Call.scalloc os num size).exec s = some (ret, s')) : ret = 0 ∧ s' = s := by
  rw [request] at hreq
  split at hreq
  · rename_i hbad
    rw [exec, Heap.scalloc] at h
    by_cases hzero : size = 0 ∨ num = 0
    · rw [if_pos hzero] at h
      cases h
      exact ⟨rfl, rfl⟩
    · -- the factors are not zero, so it is the product that is too large
      have hbig : 100000000 < size * num % wordLimit := by tauto
      rw [if_neg hzero, if_pos hbig] at h
      cases h
      exact ⟨rfl, rfl⟩
  · cases hreq

/-! ### Clients of a system that may refuse -/

/-- The answers of the system are 64-bit words. -/
structure Answers.Words (os : Answers) : Prop where
  prevProgramBreak : os.prevProgramBreak < wordLimit
  pdAdrs : os.pdAdrs < wordLimit
  mmapped : os.mmapped < wordLimit

/-- One event of a run: a call with its result, or a byte written somewhere. -/
inductive Op
  | call (c : Call) (ret : ℕ)
  | srealloc (os : Answers) (junk oldp size ret : ℕ)
  | write (x : ℕ) (v : UInt8)

/-- The heap, and every pointer its client has ever been given, `NULL` among them. -/
structure Client where
  heap : Heap
  given : Set ℕ

/-- One event of a client that hands back only pointers it was given, freed ones included. The
system may answer anything. -/
inductive ClientStep : Client → Op → Client → Prop
  | call {s : Client} {c : Call} {ret : ℕ} {heap : Heap} (harg : c.arg ∈ s.given)
      (hwords : ∀ os size, c.request = some (os, size) → os.Words)
      (hexec : c.exec s.heap = some (ret, heap)) :
      ClientStep s (.call c ret) ⟨heap, insert ret s.given⟩
  | srealloc {s : Client} {os : Answers} {junk oldp size ret : ℕ} {heap : Heap}
      (harg : oldp ∈ s.given) (hwords : os.Words)
      (hexec : s.heap.srealloc os junk oldp size = some (ret, heap)) :
      ClientStep s (.srealloc os junk oldp size ret) ⟨heap, insert ret s.given⟩
  | write {s : Client} {x : ℕ} {v : UInt8} :
      ClientStep s (.write x v) { s with heap := s.heap.setMem (Function.update s.heap.mem x v) }

/-- The runs of such clients from program start. -/
def anyClient : System Client Op where
  init s := s.heap.Fresh ∧ s.given = {0}
  step := ClientStep

namespace Client

variable {s s' : Client} {op : Op}

/-- What the globals keep to, whatever the memory holds. -/
structure Inv (s : Client) : Prop where
  head_lt : s.heap.mappedList.head < wordLimit
  first : s.heap.firstMalloc = true →
    s.given ⊆ {0} ∧ s.heap.mdListArr maxOrder = MDList.empty

/-- Once the flag is cleared, the list of mappings is all there is to look after. -/
theorem Inv.of_later (hlater : s'.heap.firstMalloc = false)
    (hhead : s'.heap.mappedList.head < wordLimit) : s'.Inv where
  head_lt := hhead
  first htrue := absurd (hlater.symm.trans htrue) Bool.false_ne_true

theorem Inv.of_init (h : anyClient.init s) : s.Inv where
  head_lt := by
    rw [h.1.mappedList]
    exact Nat.two_pow_pos 64
  first _ := ⟨h.2.subset, by rw [h.1.mdListArr]⟩

/-- A call that changes nothing and gives out `NULL`. -/
theorem Inv.same (h : s.Inv) : Inv ⟨s.heap, insert 0 s.given⟩ where
  head_lt := h.head_lt
  first htrue := by
    obtain ⟨hgiven, hempty⟩ := h.first htrue
    exact ⟨Set.insert_subset rfl hgiven, hempty⟩

theorem Inv.kept {heap : Heap} {given : Set ℕ} (h : s.Inv) (hkept : s.heap.Kept heap)
    (hlater : s.heap.firstMalloc = false) : Inv ⟨heap, given⟩ :=
  of_later (hkept.firstMalloc.trans hlater) (hkept.head_lt h.head_lt)

theorem Inv.call {c : Call} {ret : ℕ} {heap : Heap} (h : s.Inv) (harg : c.arg ∈ s.given)
    (hwords : ∀ os size, c.request = some (os, size) → os.Words)
    (hexec : c.exec s.heap = some (ret, heap)) : Inv ⟨heap, insert ret s.given⟩ := by
  cases hreq : c.request with
  | some x =>
    obtain ⟨os, size⟩ := x
    obtain ⟨s₁, hsmalloc, hheap⟩ := Call.exec_request hreq hexec
    obtain ⟨hlater, hhead⟩ := Heap.smalloc_flag hsmalloc (hwords os size hreq).mmapped
    obtain rfl | ⟨-, m, rfl⟩ := hheap
    · exact of_later hlater (hhead h.head_lt)
    · exact of_later hlater (hhead h.head_lt)
  | none =>
    cases c with
    | smalloc os size => cases hreq
    | scalloc os num size =>
      obtain ⟨rfl, rfl⟩ := Call.exec_of_request_none hreq hexec
      exact h.same
    | sfree p =>
      obtain ⟨t, hfree, heq⟩ := Option.map_eq_some_iff.mp hexec
      cases heq
      cases hfirst : s.heap.firstMalloc with
      | true =>
        -- nothing has been given out yet, so this is `sfree(NULL)`
        obtain rfl : p = 0 := (h.first hfirst).1 harg
        cases hfree
        exact h.same
      | false => exact h.kept (Heap.Kept.sfree hfree) hfirst

theorem Inv.srealloc {os : Answers} {junk oldp size ret : ℕ} {heap : Heap} (h : s.Inv)
    (harg : oldp ∈ s.given) (hwords : os.Words)
    (hexec : s.heap.srealloc os junk oldp size = some (ret, heap)) :
    Inv ⟨heap, insert ret s.given⟩ := by
  obtain ⟨⟨copy, x⟩, htraced, rfl⟩ := Option.map_eq_some_iff.mp hexec
  cases hfirst : s.heap.firstMalloc with
  | true =>
    -- nothing has been given out yet, so this is `srealloc(NULL, size)`
    obtain rfl : oldp = 0 := (h.first hfirst).1 harg
    rw [Heap.sreallocTraced] at htraced
    obtain htraced | htraced := eq_or_eq_of_ite htraced
    · cases htraced
      exact h.same
    · rw [if_pos rfl] at htraced
      obtain ⟨x, hsmalloc, heq⟩ := Option.map_eq_some_iff.mp htraced
      cases heq
      obtain ⟨hlater, hhead⟩ := Heap.smalloc_flag hsmalloc hwords.mmapped
      exact of_later hlater (hhead h.head_lt)
  | false => exact h.kept (Heap.Kept.sreallocTraced htraced hwords.mmapped hfirst) hfirst

/-- **One event.** -/
theorem Inv.step (h : s.Inv) (hstep : anyClient.step s op s') : s'.Inv := by
  cases hstep with
  | call harg hwords hexec => exact h.call harg hwords hexec
  | srealloc harg hwords hexec => exact h.srealloc harg hwords hexec
  | write => exact ⟨h.head_lt, h.first⟩

/-- **Every run**, whatever the system answers in it. -/
theorem inv_of_reachable (h : anyClient.Reachable s) : s.Inv :=
  h.invariant (fun _ => Inv.of_init) fun _ _ _ => Inv.step

end Client

/-! ### Clean failures -/

namespace Heap

/-- The results of calls made one after the other. -/
def results (s : Heap) : List Call → Option (List ℕ)
  | [] => some []
  | c :: cs => do
    let (ret, s) ← c.exec s
    let rets ← s.results cs
    return ret :: rets

/-- The system calls made in these calls succeed. -/
def ServedAll (s : Heap) : List Call → Prop
  | [] => True
  | c :: cs => c.Served s ∧ ∀ ret s', c.exec s = some (ret, s') → s'.ServedAll cs

/-- Nothing that a client can find out has changed: the lists and what is in them, the statistics,
and what later calls return for which the system calls succeed. -/
structure Unchanged (s s' : Heap) : Prop where
  list : ∀ i, s'.list i = s.list i
  blocks : ∀ i, s'.blocks i = s.blocks i
  num_free_blocks : s'._num_free_blocks = s._num_free_blocks
  num_free_bytes : s'._num_free_bytes = s._num_free_bytes
  num_allocated_blocks : s'._num_allocated_blocks = s._num_allocated_blocks
  num_allocated_bytes : s'._num_allocated_bytes = s._num_allocated_bytes
  num_meta_data_bytes : s'._num_meta_data_bytes = s._num_meta_data_bytes
  later : ∀ cs, s.ServedAll cs → s'.results cs = s.results cs

theorem Unchanged.refl (s : Heap) : s.Unchanged s :=
  ⟨fun _ => rfl, fun _ => rfl, rfl, rfl, rfl, rfl, rfl, fun _ _ => rfl⟩

/-- The call returns `NULL`, and changes nothing. -/
def FailsCleanly (s : Heap) (c : Call) : Prop := ∃ s', c.exec s = some (0, s') ∧ s.Unchanged s'

/-- The system refuses memory that `smalloc(size)` asks for: the pool, on the first call, or the
mapping for a large block. -/
def Refused (s : Heap) (os : Answers) (size : ℕ) : Prop :=
  s.firstMalloc = true ∧ os.pdAdrs = failed ∨
    invalidSize size = false ∧ size128K < metadataSize + size ∧ os.mmapped = failed

/-- Once the pool is there, a size that `smalloc` rejects by itself is a clean failure. -/
theorem failsCleanly_of_invalid {s : Heap} {os : Answers} {size : ℕ}
    (hlater : s.firstMalloc = false) (hbad : invalidSize size = true) :
    s.FailsCleanly (.smalloc os size) := by
  refine ⟨s, ?_, Unchanged.refl s⟩
  rw [Call.exec, smalloc]
  simp only [hlater, hbad, Bool.false_eq_true, if_false, if_true, Option.bind_eq_bind,
    Option.bind_some]
  rfl

end Heap

/-- The system refuses memory that the call asks for. -/
def Call.Refused (s : Heap) (c : Call) : Prop :=
  ∃ os size, c.request = some (os, size) ∧ s.Refused os size

/-- A refused call does not fail cleanly. Without the pool, the list of the largest order is not
empty any more; without the mapping, the result is not `NULL`. -/
theorem Client.Inv.not_failsCleanly {s : Client} {c : Call} (h : s.Inv)
    (hrefused : c.Refused s.heap) : ¬ s.heap.FailsCleanly c := by
  intro ⟨s', hexec, hsame⟩
  obtain ⟨os, size, hreq, hrefused⟩ := hrefused
  obtain ⟨s₁, hsmalloc, hheap⟩ := Call.exec_request hreq hexec
  obtain rfl : s' = s₁ := hheap.resolve_right fun hret => hret.1 rfl
  obtain ⟨hfirst, -⟩ | ⟨hvalid, hlarge, hos⟩ := hrefused
  · -- without the pool: the list of the largest order was empty, and is not any more
    have hlist := hsame.list (.order maxOrder)
    apply Heap.smalloc_zero_head hsmalloc hfirst
    exact congrArg MDList.head (hlist.trans (h.first hfirst).2)
  · -- without the mapping: the pointer `47` is not `NULL`
    exact absurd (Heap.smalloc_refused hsmalloc hvalid hlarge hos h.head_lt) (by decide)

/-- **No refused call fails cleanly.** In every state that a run reaches, whatever the system has
answered so far, a call is up to the promise "what the system refuses is a clean failure" exactly
when the system refuses it nothing. -/
theorem refused_clean_iff {s : Client} (h : anyClient.Reachable s) (c : Call) :
    (c.Refused s.heap → s.heap.FailsCleanly c) ↔ ¬ c.Refused s.heap := by
  have hnot := fun hrefused => (Client.inv_of_reachable h).not_failsCleanly (c := c) hrefused
  exact ⟨fun hclean hrefused => hnot hrefused (hclean hrefused), fun hgranted hrefused =>
    absurd hrefused hgranted⟩

/-- A client at program start. -/
def freshClient : Client := ⟨freshHeap, {0}⟩

theorem freshClient_reachable : anyClient.Reachable freshClient :=
  .of_init ⟨freshHeap_fresh, rfl⟩

/-- The pool is refused to the first call. -/
theorem refused_clean_iff_pool :
    ¬ freshHeap.FailsCleanly (.smalloc ⟨131072, failed, 0⟩ 100) := by
  intro hclean
  have hiff := refused_clean_iff freshClient_reachable (.smalloc ⟨131072, failed, 0⟩ 100)
  exact hiff.mp (fun _ => hclean) ⟨_, _, rfl, Or.inl ⟨rfl, rfl⟩⟩

/-- The break is at 128 KiB, and there are no mappings to be had. -/
def noMappings : Answers := ⟨131072, 131072, failed⟩

/-- The pool is granted to the first call, and the mapping it asks for is refused: the result is
the pointer `47`. -/
theorem not_failsCleanly_mapping :
    anyClient.Reachable freshClient ∧
      Call.Refused freshClient.heap (.smalloc noMappings 200000) ∧
      (∃ s', Call.exec freshClient.heap (.smalloc noMappings 200000) = some (47, s')) ∧
      ¬ freshClient.heap.FailsCleanly (.smalloc noMappings 200000) := by
  have hrefused : Call.Refused freshClient.heap (.smalloc noMappings 200000) :=
    ⟨_, _, rfl, Or.inr ⟨by decide, by decide, rfl⟩⟩
  have hos : noMappings.mmapped = failed := rfl
  have hok : noMappings.SbrkOk := ⟨rfl, by decide⟩
  refine ⟨freshClient_reachable, hrefused, ?_, ?_⟩
  · -- the pool is set up as usual, and then `mmap` fails
    obtain ⟨s₁, hinit, hready⟩ := Ready.initPool freshHeap_fresh hok
    obtain ⟨s', hmap, -⟩ := hready.repr.smallocMapped_failed (metadataSize + 200000) hos
    refine ⟨s', ?_⟩
    show freshHeap.smalloc noMappings 200000 = _
    rw [Heap.smalloc_first rfl hinit hready.firstMalloc, Heap.smalloc, hready.firstMalloc]
    exact hmap
  · exact (Client.inv_of_reachable freshClient_reachable).not_failsCleanly hrefused

end OsHomework.Malloc3
