import OsHomework.Malloc3.Ready

/-!
# The buddy invariant of `malloc_3`

In the states a client can reach, the lists of the pool should tile the arena and hold no two free
buddies (`Heap.Tiled`). The merging loop of `sfree` does not keep that: it takes any free header at
the buddy address for the buddy, also when the buddy has been split and only its first part is free
(`exists_overlap`). It does keep it in every run in which no `sfree` meets such a header
(`Session.Clean`): `pool_tiled`.
-/

namespace OsHomework.Malloc3

/-! ### The invariant -/

/-- The lists `P` of the pool, read from the heap, tile the arena at `base` as a buddy allocator's
should. -/
structure PoolTiled (s : Heap) (base : ℕ) (P : ℕ → List Blk) : Prop where
  read : ∀ k ≤ maxOrder, s.blocks (.order k) = some (P k)
  tiles : Tiles Blk.range {b | ∃ k ≤ maxOrder, b ∈ P k} (arena base)
  size : ∀ k ≤ maxOrder, ∀ b ∈ P k, b.size = 128 * 2 ^ k ∧ b.size ∣ b.addr
  sorted : ∀ k ≤ maxOrder, (P k).Pairwise fun b c => b.addr < c.addr
  once : ∀ j ≤ maxOrder, ∀ k ≤ maxOrder, ∀ b ∈ P j, ∀ c ∈ P k, b.addr = c.addr → j = k
  buddies : ∀ k < maxOrder, ∀ b ∈ P k, ∀ c ∈ P k, c.addr = b.addr ^^^ b.size →
    ¬ (b.isFree = true ∧ c.isFree = true)

/-- The pool tiles 32 blocks of 128 KiB of a region that the system granted. -/
def Heap.Tiled (s : Heap) : Prop :=
  ∃ base P, (∃ r ∈ s.regions, r.1 ≤ base ∧ base + 32 * size128K ≤ r.1 + r.2) ∧ PoolTiled s base P

/-- Walking up from the header at `a`, of a block of `size` bytes, for as long as the header at the
buddy address is free: each of these has the size of the block that has been reached. -/
def Heap.CleanWalk (s : Heap) : ℕ → ℕ → ℕ → Prop
  | 0, _, _ => True
  | n + 1, a, size => size < size128K → MD.isFree s.mem (a ^^^ size) = true →
      MD.size s.mem (a ^^^ size) = size ∧ s.CleanWalk n (min a (a ^^^ size)) (size * 2)

/-- An `sfree` meets no free header of a smaller block where it looks for a buddy. -/
def Session.Clean (t : Session) : Event → Prop
  | .call (.sfree p) _ => p ≠ 0 →
      t.heap.CleanWalk maxOrder (p - metadataSize) (MD.size t.heap.mem (p - metadataSize))
  | _ => True

/-! ### Reading the invariant off the lists -/

section Lists

variable {r : ℕ × ℕ} {s : Heap} {P : Lists} {i j : Slot} {b c : Blk} {os : Answers}
  {n a size ret : ℕ} {P' : Lists}

theorem Ready.tiled (h : Ready r s P) (hno : P.NoFreeBuddies) : s.Tiled := by
  have hpool : {b | ∃ k ≤ maxOrder, b ∈ P (.order k)} = P.pool := by
    ext b
    constructor
    · rintro ⟨k, -, hb⟩
      exact ⟨k, hb⟩
    · rintro ⟨k, hb⟩
      exact ⟨k, (h.tiling.sized k b hb).1, hb⟩
  refine ⟨poolBase r, fun k => P (.order k), ⟨r, ?_, (poolBase_bounds r).1, h.room⟩,
    ⟨fun k _ => h.repr.blocks_eq _, ?_, fun k hk b hb => ?_, fun k _ => ?_, ?_, ?_⟩⟩
  · exact h.regions.mem_iff.mpr List.mem_cons_self
  · rw [hpool]
    exact h.tiling.tiles
  · refine ⟨?_, h.tiling.dvd b ⟨k, hb⟩⟩
    rw [(h.tiling.sized k b hb).2, sizeAt_eq hk]
  · exact List.pairwise_map.mp (h.repr.list (.order k)).sorted
  · exact fun j _ k _ b hb c hc heq => (h.tiling.eq_of_addr hb hc heq).1
  · rintro k hk b hb c hc haddr ⟨hbf, hcf⟩
    have hb' := h.tiling.sized k b hb
    have hc' := h.tiling.sized k c hc
    refine hno b ⟨k, hb⟩ c ⟨k, hc⟩ ⟨hbf, hcf, ?_, ?_, haddr⟩
    · rw [hb'.2]
      exact (sizeAt_lt_128K hk.le).mpr hk
    · rw [hb'.2, hc'.2]

/-- The walk on the lists. -/
theorem Heap.CleanWalk.lists (hr : s.Repr P) (h : s.CleanWalk n a size) : P.CleanWalk n a size := by
  induction n generalizing a size with
  | zero => trivial
  | succ n ih =>
    rintro hlt c ⟨k, hc⟩ haddr hfree
    have hnode := hr.node _ c hc
    rw [Heap.CleanWalk, ← haddr, hnode.isFree, hnode.size] at h
    obtain ⟨hsize, hwalk⟩ := h hlt hfree
    exact ⟨hsize, ih hwalk⟩

theorem Allocates.noFreeBuddies (h : Allocates P os size ret P') (ht : P.Tiling (poolBase r))
    (hno : P.NoFreeBuddies) : P'.NoFreeBuddies := by
  cases h with
  | refused => exact hno
  | pool hn hb hfree hfits => exact hno.take ht hb hn
  | mapped hvalid hlarge =>
    have hpool : (P.insert .mapped ⟨os.mmapped, metadataSize + size, false⟩).pool = P.pool :=
      Lists.pool_congr fun k => Function.update_of_ne Slot.noConfusion _ _
    rw [Lists.NoFreeBuddies, hpool]
    exact hno

end Lists

/-! ### Every call -/

/-- The session has a pool, and its live pointers are the payloads of the blocks in use. -/
structure Holds (t : Session) (r : ℕ × ℕ) (P : Lists) : Prop where
  ready : Ready r t.heap P
  noFreeBuddies : P.NoFreeBuddies
  live : t.live = P.inUse

/-- Whether the event enters `smalloc`, which the first time sets the pool up. -/
def Event.entersSmalloc : Event → Bool
  | .call c _ => c.request.isSome
  | .write .. => false

/-- After the events `es`: there is no pool yet, or it is as it should be. -/
def Inv (es : List Event) (t : Session) : Prop :=
  (t.heap.Fresh ∧ t.live = ∅ ∧ ∀ e ∈ es, e.entersSmalloc = false) ∨ ∃ r P, Holds t r P

section Calls

variable {t u : Session} {es : List Event} {r : ℕ × ℕ} {P : Lists} {os : Answers} {size p : ℕ}

/-- `smalloc`, the first time or later. -/
theorem Inv.smalloc (h : Inv es t) (hserved : t.heap.Served os size) :
    ∃ ret heap r P', t.heap.smalloc os size = some (ret, heap) ∧
      Holds ⟨heap, if ret = 0 then t.live else insert ret t.live⟩ r P' ∧
      (ret ≠ 0 → ∃ i, ∃ b ∈ P' i, b.payload = ret ∧ metadataSize + size ≤ b.size) := by
  obtain ⟨r, P, ht, hno, hlive, heap, heq, hready⟩ : ∃ (r : ℕ × ℕ) (P : Lists),
      P.Tiling (poolBase r) ∧ P.NoFreeBuddies ∧ t.live = P.inUse ∧
      ∃ heap, t.heap.smalloc os size = some ((P.smalloc os size).1, heap) ∧
        Ready r heap (P.smalloc os size).2 := by
    obtain ⟨hfresh, hlive, -⟩ | ⟨r, P, hholds⟩ := h
    · refine ⟨os.sbrked, poolLists (poolBase os.sbrked) 32, Lists.tiling_poolLists (poolBase_dvd _),
        Lists.noFreeBuddies_poolLists, ?_, hfresh.smalloc hserved⟩
      rw [hlive, eq_comm, Set.eq_empty_iff_forall_notMem]
      rintro p ⟨l, b, hb, hbf, -⟩
      obtain ⟨-, j, -, rfl⟩ := mem_poolLists.mp hb
      exact Bool.noConfusion hbf
    · exact ⟨r, P, hholds.ready.tiling, hholds.noFreeBuddies, hholds.live,
        hholds.ready.smalloc hserved⟩
  have halloc := smalloc_allocates P os size
  refine ⟨_, heap, r, _, heq, ⟨hready, halloc.noFreeBuddies ht hno, ?_⟩, halloc.exists_block ht⟩
  rw [halloc.inUse_eq ht, hlive]

/-- A call that enters `smalloc` leaves a pool behind. -/
theorem Inv.request {c : Call} (h : Inv es t) (hc : c.request = some (os, size))
    (hserved : c.Served t.heap) :
    ∃ ret heap, c.exec t.heap = some (ret, heap) ∧
      ∃ r P, Holds ⟨heap, liveAfter t.live ret c⟩ r P := by
  obtain ⟨ret, heap, r, P, heq, hholds, hblock⟩ := h.smalloc (hserved os size hc)
  cases c with
  | smalloc os' size' =>
    obtain ⟨rfl, rfl⟩ : os' = os ∧ size' = size := by simpa [Call.request] using hc
    exact ⟨ret, heap, heq, r, P, hholds⟩
  | scalloc os' num size' =>
    rw [Call.request] at hc
    split_ifs at hc with hrefused
    obtain ⟨rfl, rfl⟩ : os' = os ∧ size' * num % wordLimit = size := by simpa using hc
    rw [not_or, not_or] at hrefused
    have hexec : (Call.scalloc os' num size').exec t.heap
        = some (if ret = 0 then (0, heap)
          else (ret, heap.setMem (heap.mem.fill ret (size' * num % wordLimit) 0))) := by
      show t.heap.scalloc os' num size' = _
      rw [Heap.scalloc]
      simp only [hrefused.1, hrefused.2.1, hrefused.2.2, or_self, if_false, heq,
        Option.bind_eq_bind, Option.bind_some]
      split_ifs <;> rfl
    by_cases hret : ret = 0
    · rw [if_pos hret] at hexec
      refine ⟨0, heap, hexec, r, P, ?_⟩
      rwa [hret] at hholds
    · -- the bytes that are cleared are a part of the payload
      rw [if_neg hret] at hexec
      obtain ⟨i, b, hb, hbp, hroom⟩ := hblock hret
      refine ⟨ret, _, hexec, r, P, ⟨hholds.ready.of_payload hb fun x hx => ?_, hholds.noFreeBuddies,
        hholds.live⟩⟩
      apply Mem.fill_apply_out
      rw [← hbp]
      rw [Blk.payload] at hx ⊢
      omega
  | sfree p => cases hc

/-- `sfree` of a live pointer, on a clean walk. -/
theorem Holds.sfree (h : Holds t r P) (hp : p ∈ t.live) (hclean : t.Clean (.call (.sfree p) 0)) :
    ∃ heap, t.heap.sfree p = some heap ∧ ∃ P', Holds ⟨heap, t.live \ {p}⟩ r P' := by
  have hready := h.ready
  rw [h.live] at hp
  obtain ⟨i, b, hb, hbf, rfl⟩ := hp
  cases i with
  | mapped =>
    -- a mapped block leaves the pool as it is
    obtain ⟨heap, heq, hready'⟩ := hready.sfree_mapped hb
    have hpool : (P.remove .mapped b.addr).pool = P.pool :=
      Lists.pool_congr fun k => Function.update_of_ne Slot.noConfusion _ _
    refine ⟨heap, heq, _, ⟨hready', ?_, ?_⟩⟩
    · rw [Lists.NoFreeBuddies, hpool]
      exact h.noFreeBuddies
    · show t.live \ {b.payload} = _
      rw [h.live]
      ext p
      constructor
      · rintro ⟨⟨l, c, hc, hcf, rfl⟩, hne⟩
        exact ⟨l, c, Lists.mem_remove.mpr ⟨hc, fun _ heq => hne (congrArg (· + metadataSize) heq)⟩,
          hcf, rfl⟩
      · rintro ⟨l, c, hc, hcf, rfl⟩
        obtain ⟨hc, hne⟩ := Lists.mem_remove.mp hc
        refine ⟨⟨l, c, hc, hcf, rfl⟩, fun heq => ?_⟩
        have haddr : c.addr = b.addr := Nat.add_right_cancel heq
        exact hne (hready.repr.eq_of_addr hc hb haddr).1 haddr
  | order k =>
    -- a pool block is merged along a walk that meets no smaller free block
    have hwalk : P.CleanWalk maxOrder b.addr b.size := by
      have hheap := hclean fun h0 => Lists.zero_notMem_inUse ⟨_, b, hb, hbf, h0⟩
      rw [Blk.payload_sub, (hready.repr.node _ b hb).size] at hheap
      exact hheap.lists hready.repr
    have hapart : ∀ c ∈ P .mapped, c.addr ≠ b.addr := fun c hc heq =>
      Slot.noConfusion (hready.repr.once _ _ c hc b hb heq)
    obtain ⟨P', hfree, ht, hno, hmapped, hinUse⟩ :=
      hready.tiling.free h.noFreeBuddies hb hapart hwalk
    obtain ⟨heap, heq, hready'⟩ := hready.sfree_order hb hbf hfree ht hmapped
    exact ⟨heap, heq, P', ⟨hready', hno, by rw [h.live, hinUse]⟩⟩

/-- A call that does nothing. -/
theorem Inv.unchanged (h : Inv es t) {e : Event} (he : e.entersSmalloc = false) :
    Inv (es ++ [e]) t := by
  apply h.imp_left
  rintro ⟨hfresh, hlive, hes⟩
  refine ⟨hfresh, hlive, fun e' he' => ?_⟩
  obtain he' | he' := List.mem_append.mp he'
  · exact hes e' he'
  · rwa [List.mem_singleton.mp he']

/-- **Every call** that the client may make returns, and keeps the invariant. -/
theorem Inv.call {c : Call} (h : Inv es t) (harg : c.arg = 0 ∨ c.arg ∈ t.live)
    (hserved : c.Served t.heap) (hclean : t.Clean (.call c 0)) :
    ∃ ret heap, c.exec t.heap = some (ret, heap) ∧
      Inv (es ++ [.call c ret]) ⟨heap, liveAfter t.live ret c⟩ := by
  cases hc : c.request with
  | some q =>
    -- the calls that enter `smalloc`
    obtain ⟨os, size⟩ := q
    obtain ⟨ret, heap, heq, hholds⟩ := h.request hc hserved
    exact ⟨ret, heap, heq, Or.inr hholds⟩
  | none =>
    have henters : ∀ ret, Event.entersSmalloc (.call c ret) = false := by
      intro ret
      rw [Event.entersSmalloc, hc]
      rfl
    cases c with
    | smalloc os size => cases hc
    | scalloc os num size =>
      -- `scalloc` has refused by itself
      rw [Call.request] at hc
      split_ifs at hc with hrefused
      refine ⟨0, t.heap, ?_, h.unchanged (henters 0)⟩
      show t.heap.scalloc os num size = _
      rw [Heap.scalloc]
      obtain h0 | h0 | hbig := hrefused
      · exact if_pos (Or.inl h0)
      · exact if_pos (Or.inr h0)
      · by_cases h0 : size = 0 ∨ num = 0
        · exact if_pos h0
        · exact (if_neg h0).trans (if_pos hbig)
    | sfree p =>
      have hnull : 0 ∉ t.live := by
        obtain ⟨-, hlive, -⟩ | ⟨r, P, hholds⟩ := h
        · rw [hlive]
          exact Set.notMem_empty 0
        · rw [hholds.live]
          exact Lists.zero_notMem_inUse
      obtain rfl | hp := harg
      · -- `sfree(NULL)`
        refine ⟨0, t.heap, rfl, ?_⟩
        have hlive : liveAfter t.live 0 (.sfree 0) = t.live := Set.sdiff_singleton_eq_self hnull
        rw [hlive]
        exact h.unchanged (henters 0)
      · obtain ⟨-, hlive, -⟩ | ⟨r, P, hholds⟩ := h
        · rw [hlive] at hp
          exact absurd hp (Set.notMem_empty p)
        · obtain ⟨heap, heq, P', hholds'⟩ := hholds.sfree hp hclean
          exact ⟨0, heap, congrArg (Option.map fun s => (0, s)) heq, Or.inr ⟨r, P', hholds'⟩⟩

theorem Session.Clean.ret {c : Call} {ret : ℕ} (h : t.Clean (.call c ret)) :
    t.Clean (.call c 0) := by
  cases c <;> exact h

/-- **Every event** on a clean walk keeps the invariant. -/
theorem Inv.step {e : Event} (h : Inv es t) (hclean : t.Clean e) (hstep : Step t e u) :
    Inv (es ++ [e]) u := by
  cases hstep with
  | @call c ret heap harg hserved hexec =>
    obtain ⟨ret', heap', hexec', hinv⟩ := h.call harg hserved hclean.ret
    rw [hexec] at hexec'
    cases hexec'
    exact hinv
  | @write p i v hp hi =>
    obtain ⟨-, hlive, -⟩ | ⟨r, P, hholds⟩ := h
    · rw [hlive] at hp
      exact absurd hp (Set.notMem_empty p)
    · rw [hholds.live] at hp
      exact Or.inr ⟨r, P, ⟨hholds.ready.write hp hi v, hholds.noFreeBuddies, hholds.live⟩⟩

end Calls

/-! ### Every run -/

theorem Inv.of_run {s t : Session} {es : List Event} (hs : client.init s)
    (h : (client.restrict Session.Clean).Run s es t) : Inv es t := by
  induction h with
  | nil => exact Or.inl ⟨hs.1, hs.2, fun e he => absurd he List.not_mem_nil⟩
  | snoc _ hstep ih => exact ih.step hstep.1 hstep.2

/-- **The buddy invariant**, in every run from program start in which no `sfree` meets a free header
of a smaller block where it looks for a buddy: once a call has entered `smalloc` the pool is tiled;
the payloads of live pointers are disjoint; and every further call with a clean walk returns. -/
theorem pool_tiled {s t : Session} {es : List Event} (hs : client.init s)
    (h : (client.restrict Session.Clean).Run s es t) :
    ((∃ e ∈ es, e.entersSmalloc = true) → t.heap.Tiled) ∧
    (∀ p ∈ t.live, ∀ q ∈ t.live, p ≠ q →
      Disjoint (Set.Ico p (p + t.heap.payloadSize p)) (Set.Ico q (q + t.heap.payloadSize q))) ∧
    ∀ c : Call, c.arg = 0 ∨ c.arg ∈ t.live → c.Served t.heap → t.Clean (.call c 0) →
      (c.exec t.heap).isSome := by
  have hinv := Inv.of_run hs h
  refine ⟨?_, ?_, fun c harg hserved hclean => ?_⟩
  · rintro ⟨e, he, henters⟩
    obtain ⟨-, -, hnone⟩ | ⟨r, P, hholds⟩ := hinv
    · exact absurd ((hnone e he).symm.trans henters) Bool.noConfusion
    · exact hholds.ready.tiled hholds.noFreeBuddies
  · -- payloads of different blocks
    intro p hp q hq hne
    obtain ⟨-, hlive, -⟩ | ⟨r, P, hholds⟩ := hinv
    · rw [hlive] at hp
      exact absurd hp (Set.notMem_empty p)
    · rw [hholds.live] at hp hq
      obtain ⟨i, b, hb, -, rfl⟩ := hp
      obtain ⟨j, c, hc, -, rfl⟩ := hq
      have hsize : ∀ {l : Slot} {d : Blk}, d ∈ P l →
          t.heap.payloadSize d.payload = d.size - metadataSize := by
        intro l d hd
        rw [Heap.payloadSize, Blk.payload, Nat.add_sub_cancel, (hholds.ready.repr.node l d hd).size]
      have hsep := hholds.ready.separate hb hc fun heq => hne (congrArg (· + metadataSize) heq)
      rw [hsize hb, hsize hc, Set.Ico_disjoint_Ico, Blk.payload, Blk.payload]
      omega
  · obtain ⟨ret, heap, hexec, -⟩ := hinv.call harg hserved hclean
    rw [hexec]
    rfl

/-- A program that splits a block, maps another one, gives the mapping back and merges what was
split. -/
theorem exists_merged_run :
    ∃ s es t, client.init s ∧ (client.restrict Session.Clean).Run s es t ∧ es.length = 4 ∧
      (∃ e ∈ es, e.entersSmalloc = true) ∧ t.live = ∅ := by
  obtain ⟨s₁, s₂, heq₁, hserved₂, heq₂, hready₂⟩ := exists_split_mapped
  have hinit : client.init ⟨freshHeap, ∅⟩ := ⟨freshHeap_fresh, rfl⟩
  have hserved₁ : freshHeap.Served sampleAnswers 60000 := sampleAnswers_served (by decide)
  have hstart : (client.restrict Session.Clean).Run ⟨freshHeap, ∅⟩ [] ⟨freshHeap, ∅⟩ := .nil
  have hsplit := hstart.snoc (show (client.restrict Session.Clean).step ⟨freshHeap, ∅⟩
    (.call (.smalloc sampleAnswers 60000) 262192) ⟨s₁, insert 262192 ∅⟩ from
    ⟨trivial, Step.call (Or.inl rfl) (fun _ _ hc => by cases hc; exact hserved₁) heq₁⟩)
  have hmapped := hsplit.snoc (show (client.restrict Session.Clean).step ⟨s₁, insert 262192 ∅⟩
    (.call (.smalloc sampleMapping 200000) (2 ^ 33 + metadataSize))
    ⟨s₂, insert (2 ^ 33 + metadataSize) (insert 262192 ∅)⟩ from
    ⟨trivial, Step.call (Or.inl rfl) (fun _ _ hc => by cases hc; exact hserved₂) heq₂⟩)
  -- a mapped block is too large for a walk
  set Q := splitLists.insert .mapped ⟨2 ^ 33, 200048, false⟩ with hQ
  have hmem : (⟨2 ^ 33, 200048, false⟩ : Blk) ∈ Q .mapped := Lists.self_mem_insert _ _ _
  have hlarge : ¬ MD.size s₂.mem (2 ^ 33 + metadataSize - metadataSize) < size128K := by
    rw [Nat.add_sub_cancel, (hready₂.repr.node .mapped _ hmem).size]
    decide
  obtain ⟨s₃, heq₃, hready₃⟩ := hready₂.sfree_mapped hmem
  have hclean₂ : Session.Clean ⟨s₂, insert (2 ^ 33 + metadataSize) (insert 262192 ∅)⟩
      (.call (.sfree (2 ^ 33 + metadataSize)) 0) := fun _ hlt => absurd hlt hlarge
  have hunmapped := hmapped.snoc ⟨hclean₂, Step.call (Or.inr (Set.mem_insert _ _))
    (fun _ _ hc => by cases hc) (congrArg (Option.map _) heq₃)⟩
  -- the buddy of the other block is the upper half that was split off
  have horder : (Q.remove .mapped (2 ^ 33)) (.order 9) = splitLists (.order 9) := rfl
  have hlow := hready₃.repr.node (.order 9) ⟨262144, 65536, false⟩ lower_mem_splitLists
  have hup := hready₃.repr.node (.order 9) ⟨327680, 65536, true⟩ upper_mem_splitLists
  have hwalk : s₃.CleanWalk maxOrder (262192 - metadataSize)
      (MD.size s₃.mem (262192 - metadataSize)) := by
    change s₃.CleanWalk 10 262144 (MD.size s₃.mem 262144)
    rw [hlow.size]
    exact fun _ _ => ⟨hup.size, fun hlt => absurd hlt (by decide)⟩
  have hlive : 262192 ∈ (insert (2 ^ 33 + metadataSize) (insert 262192 ∅) : Set ℕ) \
      {2 ^ 33 + metadataSize} :=
    ⟨Set.mem_insert_of_mem _ (Set.mem_insert _ _), by decide⟩
  have hfree : (Call.sfree 262192).Served s₃ := fun _ _ hc => by cases hc
  obtain ⟨ret, s₄, heq₄, -⟩ :=
    (Inv.of_run hinit hunmapped).call (c := .sfree 262192) (Or.inr hlive) hfree fun _ => hwalk
  have hmerged := hunmapped.snoc (show (client.restrict Session.Clean).step
    ⟨s₃, insert (2 ^ 33 + metadataSize) (insert 262192 ∅) \ {2 ^ 33 + metadataSize}⟩
    (.call (.sfree 262192) ret) _ from
    ⟨fun _ => hwalk, Step.call (Or.inr hlive) hfree heq₄⟩)
  refine ⟨_, _, _, hinit, hmerged, rfl,
    ⟨.call (.smalloc sampleAnswers 60000) 262192, by simp, rfl⟩, ?_⟩
  ext p
  simp [liveAfter]

/-- The theorem at such a run. -/
theorem pool_tiled_sample :
    ∃ s es t, client.init s ∧ (client.restrict Session.Clean).Run s es t ∧ es.length = 4 ∧
      t.heap.Tiled := by
  obtain ⟨s, es, t, hs, hrun, hlength, hcalled, -⟩ := exists_merged_run
  exact ⟨s, es, t, hs, hrun, hlength, (pool_tiled hs hrun).1 hcalled⟩

/-! ### Where the merging loop goes wrong -/

section Overlap

variable {s t : Session} {es : List Event} {r : ℕ × ℕ} {P P' : Lists} {b : Blk} {k size ret a : ℕ}
  {L₀ L₁ L₂ : List Blk}

/-- A run goes on with a small `smalloc`. -/
theorem run_smalloc (hrun : client.Run s es t) (h : Ready r t.heap P)
    (hsmall : metadataSize + size ≤ size128K) (hP : P.smalloc sampleAnswers size = (ret, P')) :
    ∃ heap, client.Run s (es ++ [.call (.smalloc sampleAnswers size) ret])
        ⟨heap, liveAfter t.live ret (.smalloc sampleAnswers size)⟩ ∧ Ready r heap P' := by
  have hserved : t.heap.Served sampleAnswers size := sampleAnswers_served hsmall
  obtain ⟨heap, heq, hready⟩ := h.smalloc hserved
  rw [hP] at heq hready
  refine ⟨heap, hrun.snoc (Step.call (Or.inl rfl) ?_ heq), hready⟩
  rintro os' size' hc
  cases hc
  exact hserved

/-- A run goes on with an `sfree` that merges nothing. -/
theorem run_sfree (hrun : client.Run s es t) (h : Ready r t.heap P) (hb : b ∈ P (.order k))
    (hbf : b.isFree = false) (hlive : b.payload ∈ t.live)
    (hP : P.free (.order k) b = some (P.mark (.order k) b.addr true)) :
    ∃ heap, client.Run s (es ++ [.call (.sfree b.payload) 0]) ⟨heap, t.live \ {b.payload}⟩ ∧
      Ready r heap (P.mark (.order k) b.addr true) := by
  obtain ⟨heap, heq, hready⟩ := h.sfree_order hb hbf hP (h.tiling.mark hb true)
    (Function.update_of_ne Slot.noConfusion _ _)
  refine ⟨heap, hrun.snoc (Step.call (Or.inr hlive) ?_ (congrArg (Option.map _) heq)), hready⟩
  rintro os' size' hc
  cases hc

/-- The three lists of the smallest orders. -/
structure Lists.Low (P : Lists) (L₀ L₁ L₂ : List Blk) : Prop where
  zero : P (.order 0) = L₀
  one : P (.order 1) = L₁
  two : P (.order 2) = L₂

theorem Lists.Low.lookup (h : P.Low L₀ L₁ L₂)
    (hfind : (L₀ ++ L₁ ++ L₂).find? (fun b => b.addr == a) = some b) : P.lookup a = some b := by
  rw [List.find?_append, List.find?_append, ← h.zero, ← h.one, ← h.two] at hfind
  rw [Lists.lookup,
    show List.range (maxOrder + 1) = 0 :: 1 :: 2 :: [3, 4, 5, 6, 7, 8, 9, 10] from rfl,
    List.findSome?_cons, List.findSome?_cons, List.findSome?_cons]
  cases h0 : (P (.order 0)).find? (fun b => b.addr == a) with
  | some c => simpa [h0] using hfind
  | none =>
    cases h1 : (P (.order 1)).find? (fun b => b.addr == a) with
    | some c => simpa [h0, h1] using hfind
    | none =>
      have h2 : (P (.order 2)).find? (fun b => b.addr == a) = some b := by
        simpa [h0, h1] using hfind
      simp [h2]

/-- A request for a block of the smallest order, when one is free. -/
theorem Lists.Low.smalloc_zero (h : P.Low L₀ L₁ L₂)
    (hfind : L₀.find? (Blk.fitsRequest 49) = some b) :
    P.smalloc sampleAnswers 1 = (b.payload, P.mark (.order 0) b.addr false) := by
  show P.alloc 49 = _
  rw [Lists.alloc, Lists.allocLoop, if_pos (by decide), h.zero, hfind]
  rfl

/-- Freeing a block whose buddy is in use. -/
theorem Lists.Low.free_zero {d : Blk} (h : P.Low L₀ L₁ L₂) (hsize : b.size = 128)
    (hfind : ((L₀.map fun c => if c.addr = b.addr then { c with isFree := true } else c) ++ L₁
      ++ L₂).find? (fun c => c.addr == b.addr ^^^ 128) = some d)
    (hneigh : d.isFree = false) :
    P.free (.order 0) b = some (P.mark (.order 0) b.addr true) := by
  have hmark : (P.mark (.order 0) b.addr true).Low
      (L₀.map fun c => if c.addr = b.addr then { c with isFree := true } else c) L₁ L₂ :=
    ⟨by rw [← h.zero]; rfl, h.one, h.two⟩
  rw [Lists.free]
  simp only [hsize]
  rw [if_neg (by decide), Lists.merge]
  simp only [hmark.lookup hfind, hneigh, Bool.false_eq_true, false_and, if_false]

/-- A block of the pool at 256 KiB. -/
def sampleBlk (off size : ℕ) (isFree : Bool) : Blk := ⟨262144 + off, size, isFree⟩

/-- One call of `smalloc(1)`: it splits a block of 128 KiB ten times. -/
theorem exists_first_block :
    ∃ heap P, freshHeap.smalloc sampleAnswers 1 = some ((sampleBlk 0 128 false).payload, heap) ∧
      Ready sampleAnswers.sbrked heap P ∧
      P.Low [sampleBlk 0 128 false, sampleBlk 128 128 true] [sampleBlk 256 256 true]
        [sampleBlk 512 512 true] := by
  obtain ⟨heap, heq, hready⟩ := freshHeap_fresh.smalloc
    (show freshHeap.Served sampleAnswers 1 from sampleAnswers_served (by decide))
  have halloc : (poolLists (poolBase sampleAnswers.sbrked) 32).smalloc sampleAnswers 1
      = ((sampleBlk 0 128 false).payload,
          (poolLists 262144 32).take 10 10 (sampleBlk 0 131072 true)) := rfl
  rw [halloc] at heq hready
  exact ⟨heap, _, heq, hready, rfl, rfl, rfl⟩

/-- Four calls of `smalloc(1)` and one of `smalloc(464)`. -/
theorem exists_five_blocks :
    ∃ s es t P, client.init s ∧ client.Run s es t ∧ (∃ e ∈ es, e.entersSmalloc = true) ∧
      Ready sampleAnswers.sbrked t.heap P ∧
      P.Low [sampleBlk 0 128 false, sampleBlk 128 128 false, sampleBlk 256 128 false,
        sampleBlk 384 128 false] [] [sampleBlk 512 512 false] ∧
      (sampleBlk 0 128 false).payload ∈ t.live ∧ (sampleBlk 128 128 false).payload ∈ t.live ∧
      (sampleBlk 256 128 false).payload ∈ t.live := by
  obtain ⟨heap₁, P₁, heq₁, hready₁, hlow₁⟩ := exists_first_block
  have hserved : freshHeap.Served sampleAnswers 1 := sampleAnswers_served (by decide)
  have hstep₁ : client.step ⟨freshHeap, ∅⟩
      (.call (.smalloc sampleAnswers 1) (sampleBlk 0 128 false).payload) ⟨heap₁, _⟩ :=
    Step.call (Or.inl rfl) (fun _ _ hc => by cases hc; exact hserved) heq₁
  have hrun₁ := System.Run.nil.snoc hstep₁
  -- the second takes the free half
  set P₂ := P₁.mark (.order 0) (sampleBlk 128 128 true).addr false with hP₂
  have hlow₂ : P₂.Low [sampleBlk 0 128 false, sampleBlk 128 128 false] [sampleBlk 256 256 true]
      [sampleBlk 512 512 true] := ⟨by rw [hP₂, Lists.mark, Function.update_self, hlow₁.zero]; rfl,
        hlow₁.one, hlow₁.two⟩
  obtain ⟨heap₂, hrun₂, hready₂⟩ := run_smalloc hrun₁ hready₁ (by decide) (hlow₁.smalloc_zero rfl)
  -- the third splits the block of 256 bytes
  set P₃ := P₂.take 1 1 (sampleBlk 256 256 true) with hP₃
  have halloc₃ : P₂.smalloc sampleAnswers 1 = ((sampleBlk 256 128 false).payload, P₃) := by
    show P₂.alloc 49 = _
    rw [Lists.alloc, Lists.allocLoop, if_pos (by decide), hlow₂.zero]
    show Lists.allocLoop 49 10 1 1 P₂ = _
    rw [Lists.allocLoop, if_pos (by decide), hlow₂.one]
    rfl
  have hlow₃ : P₃.Low [sampleBlk 0 128 false, sampleBlk 128 128 false, sampleBlk 256 128 false,
      sampleBlk 384 128 true] [] [sampleBlk 512 512 true] := by
    have hzero : P₃ (.order 0)
        = ((P₂ (.order 0)).orderedInsert (fun x y => x.addr < y.addr)
            (sampleBlk 384 128 true)).orderedInsert (fun x y => x.addr < y.addr)
              (sampleBlk 256 128 false) := rfl
    have hone : P₃ (.order 1)
        = (P₂ (.order 1)).filter fun b => b.addr ≠ (sampleBlk 256 256 true).addr := rfl
    refine ⟨?_, ?_, hlow₂.two⟩
    · rw [hzero, hlow₂.zero]
      rfl
    · rw [hone, hlow₂.one]
      rfl
  obtain ⟨heap₃, hrun₃, hready₃⟩ := run_smalloc hrun₂ hready₂ (by decide) halloc₃
  set P₄ := P₃.mark (.order 0) (sampleBlk 384 128 true).addr false with hP₄
  have hlow₄ : P₄.Low [sampleBlk 0 128 false, sampleBlk 128 128 false, sampleBlk 256 128 false,
      sampleBlk 384 128 false] [] [sampleBlk 512 512 true] :=
    ⟨by rw [hP₄, Lists.mark, Function.update_self, hlow₃.zero]; rfl, hlow₃.one, hlow₃.two⟩
  obtain ⟨heap₄, hrun₄, hready₄⟩ := run_smalloc hrun₃ hready₃ (by decide) (hlow₃.smalloc_zero rfl)
  -- the fifth takes the block of 512 bytes
  set P₅ := P₄.mark (.order 2) (sampleBlk 512 512 true).addr false with hP₅
  have halloc₅ : P₄.smalloc sampleAnswers 464 = ((sampleBlk 512 512 true).payload, P₅) := by
    show Lists.allocLoop 512 9 2 0 P₄ = _
    rw [Lists.allocLoop, if_pos (by decide), hlow₄.two]
    rfl
  have hlow₅ : P₅.Low [sampleBlk 0 128 false, sampleBlk 128 128 false, sampleBlk 256 128 false,
      sampleBlk 384 128 false] [] [sampleBlk 512 512 false] :=
    ⟨hlow₄.zero, hlow₄.one, by rw [hP₅, Lists.mark, Function.update_self, hlow₄.two]; rfl⟩
  obtain ⟨heap₅, hrun₅, hready₅⟩ := run_smalloc hrun₄ hready₄ (by decide) halloc₅
  refine ⟨⟨freshHeap, ∅⟩, _, _, P₅, ⟨freshHeap_fresh, rfl⟩, hrun₅, ?_, hready₅, hlow₅, ?_, ?_, ?_⟩
  · exact ⟨_, List.mem_append_left _ (List.mem_append_left _ (List.mem_append_left _
      (List.mem_append_left _ (List.mem_singleton_self _)))), rfl⟩
  · simp [liveAfter, sampleBlk, Blk.payload, metadataSize]
  · simp [liveAfter, sampleBlk, Blk.payload, metadataSize]
  · simp [liveAfter, sampleBlk, Blk.payload, metadataSize]

/-- The third block is freed, then the first: neither buddy is free. -/
theorem exists_two_freed :
    ∃ s es t P, client.init s ∧ client.Run s es t ∧ (∃ e ∈ es, e.entersSmalloc = true) ∧
      Ready sampleAnswers.sbrked t.heap P ∧
      P.Low [sampleBlk 0 128 true, sampleBlk 128 128 false, sampleBlk 256 128 true,
        sampleBlk 384 128 false] [] [sampleBlk 512 512 false] ∧
      (sampleBlk 128 128 false).payload ∈ t.live := by
  obtain ⟨s, es, t, P, hs, hrun, ⟨e, he, henters⟩, hready, hlow, hl₀, hl₁, hl₂⟩ :=
    exists_five_blocks
  have hb₂ : sampleBlk 256 128 false ∈ P (.order 0) := by rw [hlow.zero]; simp
  obtain ⟨heap₁, hrun₁, hready₁⟩ := run_sfree hrun hready hb₂ rfl hl₂
    (hlow.free_zero (d := sampleBlk 384 128 false) rfl rfl rfl)
  set P₁ := P.mark (.order 0) (sampleBlk 256 128 false).addr true with hP₁
  have hlow₁ : P₁.Low [sampleBlk 0 128 false, sampleBlk 128 128 false, sampleBlk 256 128 true,
      sampleBlk 384 128 false] [] [sampleBlk 512 512 false] :=
    ⟨by rw [hP₁, Lists.mark, Function.update_self, hlow.zero]; rfl, hlow.one, hlow.two⟩
  have hb₀ : sampleBlk 0 128 false ∈ P₁ (.order 0) := by rw [hlow₁.zero]; simp
  -- the pointers of different blocks differ
  have hne : ∀ {i j : ℕ} {b c : Bool}, i ≠ j → (sampleBlk i 128 b).payload ≠
      (sampleBlk j 128 c).payload := by
    intro i j b c hij heq
    simp only [sampleBlk, Blk.payload] at heq
    omega
  obtain ⟨heap₂, hrun₂, hready₂⟩ := run_sfree hrun₁ hready₁ hb₀ rfl ⟨hl₀, hne (by decide)⟩
    (hlow₁.free_zero (d := sampleBlk 128 128 false) rfl rfl rfl)
  set P₂ := P₁.mark (.order 0) (sampleBlk 0 128 false).addr true with hP₂
  have hlow₂ : P₂.Low [sampleBlk 0 128 true, sampleBlk 128 128 false, sampleBlk 256 128 true,
      sampleBlk 384 128 false] [] [sampleBlk 512 512 false] :=
    ⟨by rw [hP₂, Lists.mark, Function.update_self, hlow₁.zero]; rfl, hlow₁.one, hlow₁.two⟩
  exact ⟨s, _, _, P₂, hs, hrun₂,
    ⟨e, List.mem_append_left _ (List.mem_append_left _ he), henters⟩, hready₂, hlow₂,
    ⟨hl₁, hne (by decide)⟩, hne (by decide)⟩

/-- **The pool is not always tiled**: freeing the second block merges it with the first to 256
bytes, and then with the third, of 128 bytes, as if that were the whole buddy. The block of 512
bytes that results is free and overlaps the third block and the fourth, which is in use. -/
theorem exists_overlap :
    ∃ s es t, client.init s ∧ client.Run s es t ∧ (∃ e ∈ es, e.entersSmalloc = true) ∧
      ¬ t.heap.Tiled := by
  obtain ⟨s, es, t, P, hs, hrun, ⟨e, he, henters⟩, hready, hlow, hlive⟩ := exists_two_freed
  have hb : sampleBlk 128 128 false ∈ P (.order 0) := by rw [hlow.zero]; simp
  set Q := P.mark (.order 0) (sampleBlk 128 128 false).addr true with hQ
  have hlowQ : Q.Low [sampleBlk 0 128 true, sampleBlk 128 128 true, sampleBlk 256 128 true,
      sampleBlk 384 128 false] [] [sampleBlk 512 512 false] :=
    ⟨by rw [hQ, Lists.mark, Function.update_self, hlow.zero]; rfl, hlow.one, hlow.two⟩
  -- the first round, as it should be
  set Q₁ := Q.join 0 (sampleBlk 128 128 true) (sampleBlk 0 128 true) with hQ₁
  have hlow₁ : Q₁.Low [sampleBlk 256 128 true, sampleBlk 384 128 false] [sampleBlk 0 256 true]
      [sampleBlk 512 512 false] := by
    have hzero : Q₁ (.order 0) = ((Q (.order 0)).filter
        fun b => b.addr ≠ (sampleBlk 128 128 true).addr).filter
          fun b => b.addr ≠ (sampleBlk 0 128 true).addr := rfl
    have hone : Q₁ (.order 1) = (Q (.order 1)).orderedInsert (fun x y => x.addr < y.addr)
      (sampleBlk 0 256 true) := rfl
    refine ⟨?_, ?_, hlowQ.two⟩
    · rw [hzero, hlowQ.zero]
      rfl
    · rw [hone, hlowQ.one]
      rfl
  -- the second round: the free header at the buddy address is that of a smaller block
  set Q₂ := Q₁.join 1 (sampleBlk 0 256 true) (sampleBlk 256 128 true) with hQ₂
  have hlow₂ : Q₂.Low [sampleBlk 256 128 true, sampleBlk 384 128 false] []
      [sampleBlk 0 512 true, sampleBlk 512 512 false] := by
    have hone : Q₂ (.order 1) = ((Q₁ (.order 1)).filter
        fun b => b.addr ≠ (sampleBlk 0 256 true).addr).filter
          fun b => b.addr ≠ (sampleBlk 256 128 true).addr := rfl
    have htwo : Q₂ (.order 2) = (Q₁ (.order 2)).orderedInsert (fun x y => x.addr < y.addr)
      (sampleBlk 0 512 true) := rfl
    refine ⟨hlow₁.zero, ?_, ?_⟩
    · rw [hone, hlow₁.one]
      rfl
    · rw [htwo, hlow₁.two]
      rfl
  have hfree : P.free (.order 0) (sampleBlk 128 128 false) = some Q₂ := by
    have hfind : Q.lookup ((sampleBlk 128 128 true).addr ^^^ (sampleBlk 128 128 true).size)
        = some (sampleBlk 0 128 true) := hlowQ.lookup rfl
    have hfind₁ : Q₁.lookup ((sampleBlk 0 256 true).addr ^^^ (sampleBlk 0 256 true).size)
        = some (sampleBlk 256 128 true) := hlow₁.lookup rfl
    have hfind₂ : Q₂.lookup ((sampleBlk 0 512 true).addr ^^^ (sampleBlk 0 512 true).size)
        = some (sampleBlk 512 512 false) := hlow₂.lookup rfl
    calc P.free (.order 0) (sampleBlk 128 128 false)
        = Lists.merge 11 (sampleBlk 128 128 true) Q := rfl
      _ = Lists.merge 10 (sampleBlk 0 256 true) Q₁ := by rw [Lists.merge, hfind]; rfl
      _ = Lists.merge 9 (sampleBlk 0 512 true) Q₂ := by rw [Lists.merge, hfind₁]; rfl
      _ = some Q₂ := by rw [Lists.merge, hfind₂]; rfl
  obtain ⟨heap, heq, hrepr, -⟩ := hready.repr.sfree_order hready.tiling.sized hb rfl hfree
  refine ⟨s, _, ⟨heap, _⟩, hs, hrun.snoc (Step.call (c := .sfree _) (Or.inr hlive) ?_
    (congrArg (Option.map _) heq)), ⟨e, List.mem_append_left _ he, henters⟩, ?_⟩
  · rintro os size hc
    cases hc
  · rintro ⟨base, L, -, htiled⟩
    have hzero := htiled.read 0 (by decide)
    have htwo := htiled.read 2 (by decide)
    rw [hrepr.blocks_eq, hlow₂.zero, Option.some.injEq] at hzero
    rw [hrepr.blocks_eq, hlow₂.two, Option.some.injEq] at htwo
    have hsame : sampleBlk 256 128 true = sampleBlk 0 512 true := by
      refine htiled.tiles.eq_of_mem (x := 262144 + 256) ⟨0, by decide, ?_⟩ ⟨2, by decide, ?_⟩ ?_ ?_
      · rw [← hzero]
        exact List.mem_cons_self
      · rw [← htwo]
        exact List.mem_cons_self
      · exact ⟨by decide, by decide⟩
      · exact ⟨by decide, by decide⟩
    exact absurd hsame (by decide)

end Overlap

end OsHomework.Malloc3
