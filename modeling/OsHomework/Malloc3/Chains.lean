import OsHomework.Malloc3.Integrity
import OsHomework.Malloc3.Realloc

/-!
# When `srealloc` is right

Growing a block in place is sound only along a chain of free buddies that all lie above the block
and have the sizes it grows to (`srealloc_correct_iff`): the loop neither compares the two addresses
nor looks at the size of the buddy, and it does not undo anything when it stops too early. It
returns an assigned result at all only if the headers on the way pass its test up to an order that
is large enough. The copy at the end begins behind the old header and is as long as the block with
its header, so that for the last block of the pool it reads behind all that `sbrk` has granted, and
the call faults (`srealloc_outcome_iff`).
-/

namespace OsHomework.Malloc3

variable {r : ℕ × ℕ} {s t : Heap} {P P' : Lists} {os : Answers} {i : Slot} {b c : Blk}
  {junk k n q size : ℕ}

/-! ### Chains of buddies -/

/-- The blocks that a block at `a` of the order `k` has to absorb to become one of the order `j`:
its buddies at every order on the way, all of them above it. -/
def FreeChain (P : Lists) (a k j : ℕ) : Prop :=
  sizeAt j ∣ a ∧ ∀ m, k ≤ m → m < j → Lists.upperHalf a m ∈ P (.order m)

/-- The buddy of an aligned block lies above it. -/
theorem xor_sizeAt_eq_add {a m j : ℕ} (hmj : m < j) (hj : j ≤ maxOrder) (ha : sizeAt j ∣ a) :
    a ^^^ sizeAt m = a + sizeAt m := by
  have hback : (a + sizeAt m) ^^^ sizeAt m = a := Lists.upperHalf_buddy hmj hj ha
  calc a ^^^ sizeAt m = (a + sizeAt m) ^^^ sizeAt m ^^^ sizeAt m := by rw [hback]
    _ = a + sizeAt m := Nat.xor_xor_cancel_right _ _

section Chain

variable {G : Set ℕ} {a j m : ℕ}

/-- The test of the loop, at the header of a block. -/
theorem Heap.Repr.passesTest_iff (h : s.Repr P) (hc : c ∈ P i) :
    PassesTest s.mem c.addr ↔ c.isFree = true ∧ c.size < size128K := by
  rw [PassesTest, (h.node _ _ hc).isFree, (h.node _ _ hc).size]

/-- The header of a buddy in the chain. -/
theorem FreeChain.header (hchain : FreeChain P a k j) (h : s.Repr P) (hj : j ≤ maxOrder)
    (hkm : k ≤ m) (hmj : m < j) :
    PassesTest s.mem (a ^^^ sizeAt m) ∧
      MD.address s.mem (a ^^^ sizeAt m) - metadataSize = a + sizeAt m := by
  have hmem := hchain.2 m hkm hmj
  have haddr : MD.address s.mem (a + sizeAt m) = a + sizeAt m + metadataSize :=
    (h.list _).address _ (List.mem_map_of_mem hmem)
  rw [xor_sizeAt_eq_add hmj hj hchain.1]
  refine ⟨(h.passesTest_iff hmem).mpr ⟨rfl, ?_⟩, by rw [haddr, Nat.add_sub_cancel]⟩
  exact (sizeAt_lt_128K (hmj.le.trans hj)).mpr (hmj.trans_le hj)

/-- Along a chain, the blocks that go are those of the chain. -/
theorem Grown.pool_eq {base : ℕ} (hgrown : Grown G a k j s P t P') (h : s.Repr P)
    (ht : P.Tiling base)
    (hcur : (⟨a, sizeAt k, false⟩ : Blk) ∈ P (.order k)) (hchain : FreeChain P a k j) (hkj : k ≤ j)
    (hj : j ≤ maxOrder) :
    P'.pool = P.pool \ Lists.halves a j (j - k) ∪ {⟨a, sizeAt j, false⟩} := by
  have hsub : j - (j - k) = k := by omega
  ext c
  constructor
  · rintro ⟨l, hc⟩
    obtain ⟨-, rfl⟩ | ⟨hc, hca, hdrop⟩ := (hgrown.mem _ _).mp hc
    · exact Or.inr rfl
    · refine Or.inl ⟨⟨l, hc⟩, ?_⟩
      rintro (rfl | ⟨m, hm, hmj, rfl⟩)
      · exact hca rfl
      · rw [hsub] at hm
        -- the buddy of the order `m` is the one whose `address` the loop has read
        obtain ⟨rfl, -⟩ := ht.eq_of_addr hc (hchain.2 m hm hmj) rfl
        exact hdrop l hm hmj rfl (hchain.header h hj hm hmj).2.symm
  · rintro (⟨⟨l, hc⟩, hnot⟩ | rfl)
    · refine ⟨l, (hgrown.mem _ _).mpr
        (Or.inr ⟨hc, fun hca => hnot ?_, fun m hm hmj hl haddr => hnot ?_⟩)⟩
      · obtain ⟨-, rfl⟩ := ht.eq_of_addr hc hcur hca
        rw [Lists.halves, hsub]
        exact Or.inl rfl
      · rw [(hchain.header h hj hm hmj).2] at haddr
        obtain ⟨-, rfl⟩ := ht.eq_of_addr hc (hchain.2 m hm hmj) haddr
        exact Or.inr ⟨m, by omega, hmj, rfl⟩
    · exact ⟨j, hgrown.cur_mem⟩

/-- **A chain of free buddies is absorbed soundly.** -/
theorem Grown.tiling {base : ℕ} (hgrown : Grown G a k j s P t P') (h : s.Repr P)
    (ht : P.Tiling base)
    (hcur : (⟨a, sizeAt k, false⟩ : Blk) ∈ P (.order k)) (hchain : FreeChain P a k j) (hkj : k ≤ j)
    (hj : j ≤ maxOrder) : P'.Tiling base := by
  have hsub : j - (j - k) = k := by omega
  have hhalves : Tiles Blk.range (Lists.halves a j (j - k)) (Set.Ico a (a + sizeAt j)) :=
    Lists.tiles_halves a (Nat.sub_le j k) hj
  refine ht.replace (hgrown.pool_eq h ht hcur hchain hkj hj) ?_ ?_ ?_ ?_
  · rintro c (rfl | ⟨m, hm, hmj, rfl⟩)
    · rw [hsub]
      exact ⟨k, hcur⟩
    · rw [hsub] at hm
      exact ⟨m, hchain.2 m hm hmj⟩
  · rw [hhalves.cover]
    exact Tiles.singleton Blk.range ⟨a, sizeAt j, false⟩
  · intro l c hc
    obtain ⟨hl, rfl⟩ | ⟨hc, -⟩ := (hgrown.mem _ _).mp hc
    · obtain rfl := Slot.order.inj hl
      exact ⟨hj, rfl⟩
    · exact ht.sized l c hc
  · rintro c rfl
    exact hchain.1

end Chain

/-! ### When the result is right -/

/-- `srealloc` of `b` returns, and what it returns is `NULL` or as it should be, whatever the system
answers and whatever a pointer without a value holds. -/
def ReallocCorrect (r : ℕ × ℕ) (s : Heap) (P : Lists) (b : Blk) (k size : ℕ) : Prop :=
  ∀ os junk, ∃ q t, s.srealloc os junk b.payload size = some (q, t) ∧
    (q ≠ 0 → ∃ P', Reallocated r s P b k size q t P')

theorem Ready.sreallocTraced_keep (h : Ready r s P) (hb : b ∈ P (.order k)) (hsize : 1 ≤ size)
    (hlt : size + metadataSize < wordLimit) (hroom : size + metadataSize ≤ b.size) :
    s.sreallocTraced os junk b.payload size = some (none, b.payload, s) := by
  rw [h.sreallocTraced_eq hb hsize, Nat.mod_eq_of_lt hlt, if_pos hroom]

/-- A block that is already large enough. -/
theorem Ready.reallocCorrect_keep (h : Ready r s P) (hb : b ∈ P (.order k)) (hbf : b.isFree = false)
    (hsize : 1 ≤ size) (hlt : size + metadataSize < wordLimit)
    (hroom : size + metadataSize ≤ b.size) :
    ReallocCorrect r s P b k size := by
  intro os junk
  have hkeep : s.srealloc os junk b.payload size = some (b.payload, s) := by
    rw [Heap.srealloc, h.sreallocTraced_keep hb hsize hlt hroom]
    rfl
  refine ⟨_, _, hkeep, fun _ => ⟨P, h, ?_, ?_, ?_, ?_⟩⟩
  · exact ⟨_, b, hb, hbf, rfl, hroom⟩
  · exact fun n _ => rfl
  · exact fun i c hc _ _ => ⟨hc, fun n _ => rfl⟩
  · exact fun hne => absurd rfl hne

/-- A request that the pool serves needs no mapping. -/
theorem Heap.Mapped.of_small (hsmall : size + metadataSize ≤ size128K) : s.Mapped os size :=
  fun _ hlarge => absurd hlarge (by omega)

/-- A block that has to move. -/
theorem Ready.reallocCorrect_move (h : Ready r s P) (hb : b ∈ P (.order k)) (hbf : b.isFree = false)
    (hsize : 1 ≤ size) (hsmall : size + metadataSize ≤ size128K)
    (hgrow : b.size < size + metadataSize)
    (hbuddy : MD.isFree s.mem (b.addr ^^^ b.size) = false) : ReallocCorrect r s P b k size := by
  have hlt : size + metadataSize < wordLimit := hsmall.trans_lt (by decide)
  intro os junk
  obtain ⟨-, heq⟩ | ⟨q, t, P', -, -, hre, -, heq⟩ :=
    h.sreallocTraced_move hb hbf hsize hlt hgrow hbuddy (.of_small hsmall)
  · refine ⟨0, s, ?_, fun hne => absurd rfl hne⟩
    rw [Heap.srealloc, heq junk]
    rfl
  · refine ⟨q, t, ?_, fun _ => ⟨P', hre⟩⟩
    rw [Heap.srealloc, heq junk]
    rfl

/-- A block that absorbs a chain of free buddies. -/
theorem Ready.reallocated_chain {j : ℕ} (h : Ready r s P) (hb : b ∈ P (.order k))
    (hbf : b.isFree = false) (hgrown : Grown (Ready.grid r P) b.addr k j s P t P') (hkj : k ≤ j)
    (hj : j ≤ maxOrder) (hchain : FreeChain P b.addr k j) (hfits : size + metadataSize ≤ sizeAt j) :
    Reallocated r s P b k size b.payload t P' := by
  have hcur : (⟨b.addr, sizeAt k, false⟩ : Blk) ∈ P (.order k) := by
    rw [← (h.tiling.sized k b hb).2, ← hbf]
    exact hb
  -- the loop writes to headers only
  have hbytes : ∀ i, ∀ c ∈ P i, ∀ n < c.size - metadataSize,
      t.mem (c.payload + n) = s.mem (c.payload + n) := fun i c hc n hn =>
    hgrown.frame.bytes _ (h.addrs_apart_payload hc hn)
  refine ⟨h.of_frame hgrown.frame hgrown.repr ?_ hgrown.mapped, ?_, hbytes _ b hb, ?_, ?_⟩
  · exact hgrown.tiling h.repr h.tiling hcur hchain hkj hj
  · exact ⟨_, _, hgrown.cur_mem, rfl, rfl, hfits⟩
  · intro i c hc hcf hcb
    refine ⟨(hgrown.mem _ _).mpr (Or.inr ⟨hc, fun hca => ?_, fun m hm hmj hi haddr => ?_⟩),
      hbytes i c hc⟩
    · exact hcb (h.repr.eq_of_addr hc hb hca).2
    · -- the blocks that go are free
      rw [(hchain.header h.repr hj hm hmj).2] at haddr
      obtain ⟨-, rfl⟩ := h.repr.eq_of_addr hc (hchain.2 m hm hmj) haddr
      exact Bool.noConfusion hcf
  · exact fun hne => absurd rfl hne

/-- The beginning of a chain. -/
theorem FreeChain.mono {a j : ℕ} (hchain : FreeChain P a k j) (hnj : n ≤ j) (hj : j ≤ maxOrder) :
    FreeChain P a k n :=
  ⟨(Lists.sizeAt_dvd hnj hj).trans hchain.1, fun m hkm hmn => hchain.2 m hkm (hmn.trans_le hnj)⟩

/-- A block with a chain above it that is long enough. -/
theorem Ready.reallocCorrect_chain {j : ℕ} (h : Ready r s P) (hb : b ∈ P (.order k))
    (hbf : b.isFree = false) (hsize : 1 ≤ size) (hgrow : b.size < size + metadataSize)
    (hfree : MD.isFree s.mem (b.addr ^^^ b.size) = true) (hj : j ≤ maxOrder)
    (hfits : size + metadataSize ≤ sizeAt j) (hchain : FreeChain P b.addr k j) :
    ReallocCorrect r s P b k size := by
  have hsmall : size + metadataSize ≤ sizeAt maxOrder := hfits.trans (sizeAt_mono hj le_rfl)
  have hlt : size + metadataSize < wordLimit := hsmall.trans_lt (by decide)
  intro os junk
  cases h.growsInPlace hb hbf hlt hsize hgrow hfree os with
  | outOfBounds hbig => exact absurd hsmall (not_le.mpr hbig)
  | unassigned _ hkn hn hshort hstop _ =>
    -- the chain goes on where the loop is said to stop
    have hnj := lt_of_sizeAt_lt hn (hshort.trans_le hfits)
    exact absurd (hchain.header h.repr hj hkn hnj).1 (hstop (hnj.trans_le hj))
  | @assigned n t P' hgrown hkn hn hfits' hshort heq =>
    have hnj : n - 1 < j := lt_of_sizeAt_lt (by omega) (hshort.trans_le hfits)
    refine ⟨_, t, ?_, fun _ =>
      ⟨P', h.reallocated_chain hb hbf hgrown hkn.le hn (hchain.mono (by omega) hj) hfits'⟩⟩
    rw [Heap.srealloc, heq junk]
    rfl

/-! ### Only chains -/

section OnlyChains

variable {G : Set ℕ} {a m base : ℕ}

/-- The block that starts where the first `sizeAt m` bytes of a chain end. -/
theorem Lists.Tiling.exists_after_halves (ht : P.Tiling base) (hkm : k ≤ m) (hm : m ≤ maxOrder)
    (hcur : (⟨a, sizeAt k, false⟩ : Blk) ∈ P (.order k))
    (hhalves : ∀ l, k ≤ l → l < m → Lists.upperHalf a l ∈ P (.order l))
    (hx : a + sizeAt m ∈ arena base) : ∃ l, ∃ c ∈ P (.order l), c.addr = a + sizeAt m := by
  have hsub : m - (m - k) = k := by omega
  have hpool : Lists.halves a m (m - k) ⊆ P.pool := by
    rintro c (rfl | ⟨l, hl, hlm, rfl⟩)
    · rw [hsub]
      exact ⟨k, hcur⟩
    · rw [hsub] at hl
      exact ⟨l, hhalves l hl hlm⟩
  have htiles : Tiles Blk.range (Lists.halves a m (m - k)) (Set.Ico a (a + sizeAt m)) :=
    Lists.tiles_halves a (Nat.sub_le m k) hm
  obtain ⟨c, ⟨l, hc⟩, hxc⟩ := ht.tiles.exists_mem hx
  refine ⟨l, c, hc, le_antisymm hxc.1 ?_⟩
  by_contra hlt
  -- otherwise the block shares its byte before with one of the halves, and is that half
  have hpos := sizeAt_pos hm
  have hbefore : a + sizeAt m - 1 ∈ Set.Ico a (a + sizeAt m) := ⟨by omega, by omega⟩
  obtain ⟨d, hd, hxd⟩ := htiles.exists_mem hbefore
  have hcd : c = d := by
    refine ht.tiles.eq_of_mem ⟨l, hc⟩ (hpool hd) ⟨?_, ?_⟩ hxd
    · omega
    · have := hxc.2
      omega
  have hend := (htiles.subset hd (hcd ▸ hxc)).2
  exact absurd hend (lt_irrefl _)

/-- **Growing in place keeps the tiling only along a chain.** -/
theorem Grown.freeChain (hgrown : Grown G a k n s P t P') (h : s.Repr P) (ht : P.Tiling base)
    (hcur : (⟨a, sizeAt k, false⟩ : Blk) ∈ P (.order k)) (hn : n ≤ maxOrder)
    (ht' : P'.Tiling base) :
    FreeChain P a k n := by
  have hcur' : (⟨a, sizeAt n, false⟩ : Blk) ∈ P'.pool := ⟨n, hgrown.cur_mem⟩
  have hdvd : sizeAt n ∣ a := ht'.dvd _ hcur'
  refine ⟨hdvd, fun m => ?_⟩
  induction m using Nat.strong_induction_on with
  | _ m ih =>
    intro hkm hmn
    have hm : m ≤ maxOrder := hmn.le.trans hn
    have hlt := sizeAt_strictMono hmn hn
    have hpos := sizeAt_pos hm
    have hinside : a + sizeAt m ∈ (⟨a, sizeAt n, false⟩ : Blk).range :=
      ⟨Nat.le_add_right _ _, Nat.add_lt_add_left hlt a⟩
    obtain ⟨l, c, hc, hca⟩ := ht.exists_after_halves hkm hm hcur
      (fun l hl hlm => ih l hlm hl (hlm.trans hmn)) (ht'.tiles.subset hcur' hinside)
    obtain ⟨hl, hsize⟩ := ht.sized l c hc
    have hxor : a ^^^ sizeAt m = a + sizeAt m := xor_sizeAt_eq_add hmn hn hdvd
    have hfree : c.isFree = true := by
      have htest := (hgrown.tests m hkm hmn).1
      rw [hxor, ← hca] at htest
      exact (h.node _ _ hc).isFree.symm.trans htest
    -- a larger block cannot start there
    have hle : l ≤ m := by
      by_contra hml
      have hdiv : sizeAt (min l n) ∣ a + sizeAt m := by
        rw [← hca]
        apply (Lists.sizeAt_dvd (min_le_left l n) hl).trans
        rw [← hsize]
        exact ht.dvd c ⟨l, hc⟩
      have hdiv' :=
        (Nat.dvd_add_right ((Lists.sizeAt_dvd (min_le_right l n) hn).trans hdvd)).mp hdiv
      have hgt := sizeAt_strictMono (show m < min l n by omega) ((min_le_left l n).trans hl)
      exact absurd (Nat.le_of_dvd hpos hdiv') (not_le.mpr hgt)
    obtain rfl | hlm := Nat.eq_or_lt_of_le hle
    · have hc' : c = Lists.upperHalf a l := by
        rw [Lists.upperHalf, ← hca, ← hsize, ← hfree]
      rwa [← hc']
    · -- a smaller block is left in its list, inside the block that has grown
      have hstays : c ∈ P' (.order l) := by
        refine (hgrown.mem _ _).mpr (Or.inr ⟨hc, by omega, fun l' hkl hln heq haddr => ?_⟩)
        obtain rfl := Slot.order.inj heq
        have hhalf := ih l hlm hkl hln
        have hown : MD.address s.mem (a + sizeAt l) = a + sizeAt l + metadataSize :=
          (h.list _).address _ (List.mem_map_of_mem hhalf)
        have hless := sizeAt_strictMono hlm hm
        rw [xor_sizeAt_eq_add hln hn hdvd, hown, Nat.add_sub_cancel] at haddr
        omega
      have heq := ht'.tiles.eq_of_mem ⟨l, hstays⟩ hcur' (ht'.addr_mem_range ⟨l, hstays⟩)
        (hca ▸ hinside)
      rw [heq] at hca
      simp only at hca
      omega

end OnlyChains

/-- Growing in place is right only along a chain. -/
theorem ReallocCorrect.exists_chain (hcorrect : ReallocCorrect r s P b k size) (h : Ready r s P)
    (hb : b ∈ P (.order k)) (hbf : b.isFree = false) (hsize : 1 ≤ size)
    (hsmall : size + metadataSize ≤ sizeAt maxOrder) (hgrow : b.size < size + metadataSize)
    (hfree : MD.isFree s.mem (b.addr ^^^ b.size) = true) :
    ∃ j ≤ maxOrder, size + metadataSize ≤ sizeAt j ∧ FreeChain P b.addr k j := by
  have hlt : size + metadataSize < wordLimit := hsmall.trans_lt (by decide)
  cases h.growsInPlace hb hbf hlt hsize hgrow hfree sampleAnswers with
  | outOfBounds hbig => exact absurd hsmall (not_le.mpr hbig)
  | unassigned hgrown _ _ hshort _ heq =>
    -- the pointer without a value may be the old payload, whose block is too small
    obtain ⟨q, t, heq', hre⟩ := hcorrect sampleAnswers b.payload
    rw [Heap.srealloc, heq] at heq'
    obtain ⟨rfl, rfl⟩ := Prod.mk.inj (Option.some.inj heq')
    obtain ⟨P'', hre⟩ := hre b.payload_ne_zero
    obtain ⟨i, d, hd, -, hdq, hdsize⟩ := hre.block
    rw [hre.ready.repr.unique hgrown.repr] at hd
    obtain ⟨-, rfl⟩ := hgrown.repr.eq_of_addr hd hgrown.cur_mem (Nat.add_right_cancel hdq)
    exact absurd hdsize (not_le.mpr hshort)
  | @assigned n t P' hgrown hkn hn hfits _ heq =>
    obtain ⟨q, t', heq', hre⟩ := hcorrect sampleAnswers 0
    rw [Heap.srealloc, heq 0] at heq'
    obtain ⟨rfl, rfl⟩ := Prod.mk.inj (Option.some.inj heq')
    obtain ⟨P'', hre⟩ := hre b.payload_ne_zero
    have htiling := hre.ready.tiling
    rw [hre.ready.repr.unique hgrown.repr] at htiling
    have hcur : (⟨b.addr, sizeAt k, false⟩ : Blk) ∈ P (.order k) := by
      rw [← (h.tiling.sized k b hb).2, ← hbf]
      exact hb
    exact ⟨n, hn, hfits, hgrown.freeChain h.repr h.tiling hcur hn htiling⟩

/-- The header at the buddy address is that of a pool block. -/
theorem Ready.isFree_buddy (h : Ready r s P) (hb : b ∈ P (.order k)) (hlt : b.size < size128K) :
    MD.isFree s.mem (b.addr ^^^ b.size) = false ↔
      ∀ c ∈ P.pool, c.addr = b.addr ^^^ b.size → c.isFree = false := by
  constructor
  · rintro hbuddy c ⟨l, hc⟩ haddr
    rw [← (h.repr.node _ _ hc).isFree, haddr]
    exact hbuddy
  · intro hbuddy
    obtain ⟨c, ⟨l, hc⟩, haddr, -⟩ := h.tiling.exists_neighbor ⟨k, hb⟩ hlt
    rw [← haddr]
    exact (h.repr.node _ _ hc).isFree.trans (hbuddy c ⟨l, hc⟩ haddr)

/-- **When `srealloc` of a pool block is right**: if the block is large enough, or the block at its
buddy address is in use, or it can absorb free buddies that all lie above it, each of the size that
it has grown to, until it is large enough. -/
theorem srealloc_correct_iff (h : Ready r s P) (hb : b ∈ P (.order k)) (hbf : b.isFree = false)
    (hsize : 1 ≤ size) (hsmall : size + metadataSize ≤ 131072) :
    ReallocCorrect r s P b k size ↔
      size + metadataSize ≤ b.size ∨
      (∀ c ∈ P.pool, c.addr = b.addr ^^^ b.size → c.isFree = false) ∨
      ∃ j ≤ maxOrder, size + metadataSize ≤ sizeAt j ∧ FreeChain P b.addr k j := by
  have hlt : size + metadataSize < wordLimit := hsmall.trans_lt (by decide)
  by_cases hroom : size + metadataSize ≤ b.size
  · exact iff_of_true (h.reallocCorrect_keep hb hbf hsize hlt hroom) (Or.inl hroom)
  have hgrow := not_le.mp hroom
  have hiff := h.isFree_buddy hb (hgrow.trans_le hsmall)
  constructor
  · intro hcorrect
    apply Or.inr
    -- the header decides which branch is taken
    by_cases hfree : MD.isFree s.mem (b.addr ^^^ b.size) = true
    · exact Or.inr (hcorrect.exists_chain h hb hbf hsize hsmall hgrow hfree)
    · exact Or.inl (hiff.mp (Bool.not_eq_true _ ▸ hfree))
  · rintro (hle | hbuddy | ⟨j, hj, hfits, hchain⟩)
    · exact absurd hle hroom
    · exact h.reallocCorrect_move hb hbf hsize hsmall hgrow (hiff.mpr hbuddy)
    · by_cases hfree : MD.isFree s.mem (b.addr ^^^ b.size) = true
      · exact h.reallocCorrect_chain hb hbf hsize hgrow hfree hj hfits hchain
      · exact h.reallocCorrect_move hb hbf hsize hsmall hgrow (Bool.not_eq_true _ ▸ hfree)

/-- The only block in use of a new pool: it grows from 128 to 512 bytes. -/
theorem srealloc_correct_iff_sample :
    ∃ s P, Ready sampleAnswers.sbrked s P ∧ sampleBlk 0 128 false ∈ P (.order 0) ∧
      ReallocCorrect sampleAnswers.sbrked s P (sampleBlk 0 128 false) 0 300 := by
  obtain ⟨s, P, -, hready, hlow⟩ := exists_first_block
  have hb : sampleBlk 0 128 false ∈ P (.order 0) := by
    rw [hlow.zero]
    exact List.mem_cons_self
  refine ⟨s, P, hready, hb, (srealloc_correct_iff hready hb rfl (by decide) (by decide)).mpr ?_⟩
  refine Or.inr (Or.inr ⟨2, by decide, by decide, by decide, fun m _ hm => ?_⟩)
  obtain rfl | rfl : m = 0 ∨ m = 1 := by omega
  · rw [hlow.zero]
    exact List.mem_cons_of_mem _ List.mem_cons_self
  · rw [hlow.one]
    exact List.mem_cons_self

/-- **A block whose free buddy lies below it**: it is made larger upwards nevertheless, over the
block behind it. -/
theorem not_reallocCorrect_upper :
    ∃ s es t P, client.init s ∧ client.Run s es t ∧ Ready sampleAnswers.sbrked t.heap P ∧
      sampleBlk 128 128 false ∈ P (.order 0) ∧ (sampleBlk 128 128 false).payload ∈ t.live ∧
      ¬ ReallocCorrect sampleAnswers.sbrked t.heap P (sampleBlk 128 128 false) 0 100 := by
  obtain ⟨s, es, t, P, hs, hrun, -, hready, hlow, hlive⟩ := exists_two_freed
  have hb : sampleBlk 128 128 false ∈ P (.order 0) := by
    rw [hlow.zero]
    exact List.mem_cons_of_mem _ List.mem_cons_self
  have hbuddy : sampleBlk 0 128 true ∈ P (.order 0) := by
    rw [hlow.zero]
    exact List.mem_cons_self
  refine ⟨s, es, t, P, hs, hrun, hready, hb, hlive, fun hcorrect => ?_⟩
  obtain ⟨j, hj, hfits, hdvd, -⟩ := hcorrect.exists_chain hready hb rfl (by decide) (by decide)
    (by decide) (hready.repr.node _ _ hbuddy).isFree
  have hj1 : 1 ≤ j := lt_of_sizeAt_lt (Nat.zero_le _) (lt_of_lt_of_le (by decide) hfits)
  exact absurd ((Lists.sizeAt_dvd hj1 hj).trans hdvd) (by decide)

/-! ### When there is a result -/

/-- `q` is the payload of a block in use with room for `size` bytes. -/
def Heap.HasBlock (t : Heap) (q size : ℕ) : Prop :=
  ∃ i L, t.blocks i = some L ∧ ∃ d ∈ L, d.isFree = false ∧ d.payload = q ∧
    size + metadataSize ≤ d.size

/-- What the system has granted. A read from anywhere else may fault. -/
def Heap.Granted (s : Heap) : Set ℕ := {x | ∃ r ∈ s.regions, x ∈ Set.Ico r.1 (r.1 + r.2)}

/-- The reads of `srealloc` that can leave the blocks of the pool. The loop that merges looks at
further headers, which lie in the arena as long as it has a result; and what is written lies in the
block that is returned, or in the pages of its mapping. -/
structure Heap.ReadsGranted (s : Heap) (b : Blk) (size : ℕ) (copy : Option Copy) (t : Heap) :
    Prop where
  /-- The flag in the header at the buddy address, if the block is not large enough. -/
  buddy : b.size < (size + metadataSize) % wordLimit →
    (b.addr ^^^ b.size) + metadata.off .is_free ∈ s.Granted
  /-- The source of the `memmove`. -/
  copied : ∀ c ∈ copy, c.reads ⊆ t.Granted

/-- `srealloc` of `b` returns, without a read from outside what is granted, a block that is large
enough, or `NULL` with the heap as it was, whatever a pointer without a value holds. -/
def ReallocOutcome (s : Heap) (os : Answers) (b : Blk) (size : ℕ) : Prop :=
  ∀ junk, ∃ copy q t, s.sreallocTraced os junk b.payload size = some (copy, q, t) ∧
    s.ReadsGranted b size copy t ∧ (t.HasBlock q size ∨ q = 0 ∧ t = s)

/-- What `mmap` may answer if `smalloc(size)` calls it: a failure, or whole pages beside all
others. -/
def Heap.MmapAnswers (s : Heap) (os : Answers) (size : ℕ) : Prop :=
  invalidSize size = false → size128K < metadataSize + size →
    os.mmapped = failed ∨ os.MmapOk (pageCeil (metadataSize + size)) s.regions

/-- The block at an address is the only one there. -/
theorem Heap.Repr.hasBlock_iff (h : t.Repr P) (hc : c ∈ P i) :
    t.HasBlock c.payload size ↔ c.isFree = false ∧ size + metadataSize ≤ c.size := by
  constructor
  · rintro ⟨j, L, hL, d, hd, hdf, hdq, hdsize⟩
    obtain rfl : P j = L := Option.some.inj ((h.blocks_eq j).symm.trans hL)
    obtain ⟨-, rfl⟩ := h.eq_of_addr hd hc (Nat.add_right_cancel hdq)
    exact ⟨hdf, hdsize⟩
  · rintro ⟨hcf, hcsize⟩
    exact ⟨i, P i, h.blocks_eq i, c, hc, hcf, rfl, hcsize⟩

/-- The result, when it is known, decides the outcome. -/
theorem ReallocOutcome.of_eq {copy : Option Copy} (houtcome : ReallocOutcome s os b size)
    (heq : s.sreallocTraced os junk b.payload size = some (copy, q, t)) :
    s.ReadsGranted b size copy t ∧ (t.HasBlock q size ∨ q = 0 ∧ t = s) := by
  obtain ⟨copy', q', t', heq', hreads, hblock⟩ := houtcome junk
  obtain ⟨rfl, hret⟩ := Prod.mk.inj (Option.some.inj (heq.symm.trans heq'))
  obtain ⟨rfl, rfl⟩ := Prod.mk.inj hret
  exact ⟨hreads, hblock⟩

/-! ### What is granted -/

/-- The bytes of the pool. -/
theorem Ready.Ico_subset_granted {lo hi : ℕ} (h : Ready r s P) (hlo : poolBase r ≤ lo)
    (hhi : hi ≤ poolBase r + 32 * size128K) : Set.Ico lo hi ⊆ s.Granted := by
  rintro x ⟨hx, hx'⟩
  have hbase := (poolBase_bounds r).1
  have hroom := h.room
  exact ⟨r, h.regions.mem_iff.mpr List.mem_cons_self, by omega, by omega⟩

/-- The headers of the grid. -/
theorem Ready.flag_mem_granted {x : ℕ} (h : Ready r s P) (hx : x ∈ Ready.grid r P) :
    x + metadata.off .is_free ∈ s.Granted := by
  have hoff : metadata.off .is_free = 8 := rfl
  rw [hoff]
  obtain ⟨hx, hdvd⟩ | ⟨c, hc, rfl⟩ := hx
  · obtain ⟨hlo, hhi⟩ := h.arena_bounds hx hdvd
    have hbytes : Set.Ico x (x + 128) ⊆ s.Granted := h.Ico_subset_granted hlo hhi
    exact hbytes ⟨by omega, by omega⟩
  · have hlarge := (h.mapped c hc).2.1
    refine ⟨c.region, h.regions.mem_iff.mpr
      (List.mem_cons_of_mem _ (List.mem_map_of_mem hc)), Nat.le_add_right _ _, ?_⟩
    show c.addr + 8 < c.addr + c.size
    simp only [size128K] at hlarge
    omega

/-- What is granted once `smalloc(size)` has asked for the mapping that it may need. -/
def Heap.GrantedFor (s : Heap) (os : Answers) (size : ℕ) : Set ℕ :=
  {x | x ∈ s.Granted ∨ size128K < metadataSize + size ∧
    x ∈ Set.Ico os.mmapped (os.mmapped + (metadataSize + size))}

theorem Ready.mem_granted_iff {x : ℕ} (h : Ready r s P) :
    x ∈ s.Granted ↔
      x ∈ Set.Ico r.1 (r.1 + r.2) ∨ ∃ c ∈ P .mapped, x ∈ Set.Ico c.addr (c.addr + c.size) := by
  constructor
  · rintro ⟨y, hy, hx⟩
    obtain rfl | hy := List.mem_cons.mp (h.regions.mem_iff.mp hy)
    · exact Or.inl hx
    · obtain ⟨c, hc, rfl⟩ := List.mem_map.mp hy
      exact Or.inr ⟨c, hc, hx⟩
  · rintro (hx | ⟨c, hc, hx⟩)
    · exact ⟨r, h.regions.mem_iff.mpr List.mem_cons_self, hx⟩
    · exact ⟨c.region, h.regions.mem_iff.mpr
        (List.mem_cons_of_mem _ (List.mem_map_of_mem hc)), hx⟩

/-- A block of the pool needs nothing new, a large one its mapping. -/
theorem Ready.granted_of_allocates {P₁ : Lists} (h : Ready r s P) (h' : Ready r t P')
    (hsized : P₁.Sized) (hmark : P₁ .mapped = P .mapped) (halloc : Allocates P₁ os size q P')
    (hq : q ≠ 0) :
    t.Granted = s.GrantedFor os size := by
  ext x
  rw [h'.mem_granted_iff, Heap.GrantedFor, Set.mem_ofPred_eq, h.mem_granted_iff]
  cases halloc with
  | refused => exact absurd rfl hq
  | @pool index n d hn hd hfree hfits =>
    have hsmall : ¬ size128K < metadataSize + size := by
      have hindex := (hsized _ _ hd).1
      exact not_lt.mpr (hfits.trans (sizeAt_le ((Nat.sub_le index n).trans hindex)))
    rw [Lists.take_mapped, hmark]
    simp only [hsmall, false_and, or_false]
  | mapped hvalid hlarge =>
    simp only [hlarge, true_and]
    constructor
    · rintro (hx | ⟨c, hc, hx⟩)
      · exact Or.inl (Or.inl hx)
      · obtain ⟨-, rfl⟩ | hc := Lists.mem_insert.mp hc
        · exact Or.inr hx
        · exact Or.inl (Or.inr ⟨c, hmark ▸ hc, hx⟩)
    · rintro ((hx | ⟨c, hc, hx⟩) | hx)
      · exact Or.inl hx
      · exact Or.inr ⟨c, Lists.mem_insert.mpr (Or.inr (hmark.symm ▸ hc)), hx⟩
      · exact Or.inr ⟨_, Lists.self_mem_insert _ _ _, hx⟩

/-! ### The outcome, branch by branch -/

/-- A size whose total wraps around is taken for a small one. -/
theorem Ready.sreallocTraced_wrap (h : Ready r s P) (hb : b ∈ P (.order k)) (hsize : 1 ≤ size)
    (hword : size < wordLimit) (hwrap : wordLimit ≤ size + metadataSize) :
    s.sreallocTraced os junk b.payload size = some (none, b.payload, s) := by
  have hmod : (size + metadataSize) % wordLimit = size + metadataSize - wordLimit := by
    rw [Nat.mod_eq_sub_mod hwrap, Nat.mod_eq_of_lt]
    have hhdr : metadataSize < wordLimit := by decide
    omega
  have hlong := h.metadataSize_lt hb
  rw [h.sreallocTraced_eq hb hsize, if_pos (by omega)]

theorem Ready.not_outcome_wrap (h : Ready r s P) (hb : b ∈ P (.order k)) (hsize : 1 ≤ size)
    (hword : size < wordLimit) (hwrap : wordLimit ≤ size + metadataSize) :
    ¬ ReallocOutcome s os b size := by
  intro houtcome
  have heq : s.sreallocTraced os 0 b.payload size = some (none, b.payload, s) :=
    h.sreallocTraced_wrap hb hsize hword hwrap
  have hblock := (houtcome.of_eq heq).2
  have hroom := ((h.repr.hasBlock_iff hb).mp
    (hblock.resolve_right fun hnull => b.payload_ne_zero hnull.1)).2
  obtain ⟨hk, hbsize⟩ := h.tiling.sized k b hb
  have := sizeAt_lt_word hk
  omega

/-- Growing in place has an outcome if the loop gets far enough, and what the block has become ends
a header's length before the end of what is granted. -/
theorem Ready.outcome_grow_iff (h : Ready r s P) (hb : b ∈ P (.order k)) (hbf : b.isFree = false)
    (hsize : 1 ≤ size) (hlt : size + metadataSize < wordLimit)
    (hgrow : b.size < size + metadataSize) (hfree : MD.isFree s.mem (b.addr ^^^ b.size) = true) :
    ReallocOutcome s os b size ↔ ∃ j ≤ maxOrder, size + metadataSize ≤ sizeAt j ∧
      (∀ m, k ≤ m → m < j → PassesTest s.mem (b.addr ^^^ sizeAt m)) ∧
      Set.Ico b.payload (b.payload + sizeAt j) ⊆ s.Granted := by
  cases h.growsInPlace hb hbf hlt hsize hgrow hfree os with
  | outOfBounds hbig heq =>
    refine iff_of_false (fun houtcome => ?_) ?_
    · obtain ⟨copy, q, t, heq', -⟩ := houtcome 0
      exact absurd ((heq 0).symm.trans heq') (Option.some_ne_none _).symm
    · rintro ⟨j, hj, hfits, -⟩
      exact absurd (hfits.trans (sizeAt_mono hj le_rfl)) (not_le.mpr hbig)
  | unassigned hgrown hkn hn hshort hstop heq =>
    refine iff_of_false (fun houtcome => ?_) ?_
    · -- the pointer without a value may be the old payload, whose block is too small
      have hblock := (houtcome.of_eq heq).2.resolve_right fun hnull => b.payload_ne_zero hnull.1
      exact absurd ((hgrown.repr.hasBlock_iff hgrown.cur_mem).mp hblock).2 (not_le.mpr hshort)
    · rintro ⟨j, hj, hfits, htests, -⟩
      have hnj := lt_of_sizeAt_lt hn (hshort.trans_le hfits)
      exact hstop (hnj.trans_le hj) (htests _ hkn hnj)
  | @assigned n t P' hgrown hkn hn hfits hshort heq =>
    -- the loop makes no system call
    have hgranted : t.Granted = s.Granted := by
      rw [Heap.Granted, hgrown.frame.regions]
      rfl
    constructor
    · intro houtcome
      have hcopied := (houtcome.of_eq (heq 0)).1.copied _ rfl
      rw [hgranted] at hcopied
      exact ⟨n, hn, hfits, hgrown.tests, hcopied⟩
    · rintro ⟨j, hj, hfits', -, hsub⟩ junk
      refine ⟨_, b.payload, t, heq junk, ⟨fun _ => ?_, ?_⟩,
        Or.inl ((hgrown.repr.hasBlock_iff hgrown.cur_mem).mpr ⟨rfl, hfits⟩)⟩
      · rw [(h.tiling.sized k b hb).2]
        exact h.flag_mem_granted (h.grid_xor hb (hkn.trans_le hn))
      · -- the loop stops at the first order that is large enough
        have hnj : n - 1 < j := lt_of_sizeAt_lt (by omega) (hshort.trans_le hfits')
        have hle : sizeAt n ≤ sizeAt j := sizeAt_mono (by omega) hj
        intro copy hcopy
        obtain rfl := Option.some.inj hcopy
        rw [hgranted]
        exact (Set.Ico_subset_Ico_right (Nat.add_le_add_left hle _)).trans hsub

/-- Moving, when the mapping that is needed fails: there is no check, and the old bytes are copied
to where the header at `(void*)-1` ends. -/
theorem Ready.sreallocTraced_failed {copy : Option Copy} (h : Ready r s P) (hb : b ∈ P (.order k))
    (hsize : 1 ≤ size) (hlt : size + metadataSize < wordLimit)
    (hgrow : b.size < size + metadataSize)
    (hbuddy : MD.isFree s.mem (b.addr ^^^ b.size) = false) (hvalid : invalidSize size = false)
    (hlarge : size128K < metadataSize + size) (hos : os.mmapped = failed)
    (heq : s.sreallocTraced os junk b.payload size = some (copy, q, t)) :
    q = metadataSize - 1 ∧ copy = some ⟨metadataSize - 1, b.payload, b.size⟩ := by
  have hready := h.mark_free hb
  obtain ⟨s', hmap, hkeep⟩ := hready.repr.smallocMapped_failed (metadataSize + size) hos
  have hsmalloc : (s.setMem (metadata.set .is_free s.mem b.addr 1)).smalloc os size
      = some (metadataSize - 1, s') := by
    rw [← hmap, Heap.smalloc]
    have htot : (metadataSize + size) % wordLimit = metadataSize + size :=
      Nat.mod_eq_of_lt (Ready.lt_of_valid hvalid)
    simp only [hready.firstMalloc, hvalid, htot, if_neg (not_le.mpr hlarge), Bool.false_eq_true,
      if_false, Option.bind_eq_bind, Option.bind_some]
  -- the header of the old block lies below `(void*)-1`
  have hlen : MD.size s'.mem b.addr = b.size := by
    have hold : ({ b with isFree := true } : Blk) ∈ P.mark (.order k) b.addr true (.order k) :=
      Lists.mem_mark.mpr ⟨b, hb, (if_pos ⟨rfl, rfl⟩).symm⟩
    refine Eq.trans (Layout.get_congr fun x hx => hkeep x (hx.2.trans_le ?_))
      (hready.repr.node _ _ hold).size
    rw [failed]
    exact Nat.le_sub_one_of_lt (h.repr.apart.lt _ (Lists.addr_mem hb))
  have hne : metadataSize - 1 ≠ 0 := by decide
  rw [h.sreallocTraced_eq hb hsize, Nat.mod_eq_of_lt hlt, if_neg (not_le.mpr hgrow), hbuddy,
    if_neg Bool.false_ne_true, hsmalloc, Option.bind_some, if_neg hne, Heap.finishCopy, hlen,
    Option.map_eq_some_iff] at heq
  obtain ⟨s'', -, heq⟩ := heq
  obtain ⟨hcopy, hret⟩ := Prod.ext_iff.mp heq
  exact ⟨(congrArg Prod.fst hret).symm, hcopy.symm⟩

/-- Moving has an outcome if the flag at the buddy address can be read, the mapping that may be
needed is granted, and so are, if there is something to copy to, as many bytes behind the old header
as the whole block has. -/
theorem Ready.outcome_move_iff (h : Ready r s P) (hb : b ∈ P (.order k)) (hbf : b.isFree = false)
    (hsize : 1 ≤ size) (hlt : size + metadataSize < wordLimit)
    (hgrow : b.size < size + metadataSize)
    (hbuddy : MD.isFree s.mem (b.addr ^^^ b.size) = false) (hos : s.MmapAnswers os size) :
    ReallocOutcome s os b size ↔
      (b.addr ^^^ b.size) + metadata.off .is_free ∈ s.Granted ∧ s.Mapped os size ∧
      (P.Serves size → Set.Ico b.payload (b.payload + b.size) ⊆ s.GrantedFor os size) := by
  have hserves : ((P.mark (.order k) b.addr true).smalloc os size).1 = 0 ↔ ¬ P.Serves size :=
    h.smalloc_mark_eq_zero_iff hb hsize (by omega)
  have hmove := fun hmapped => h.sreallocTraced_move hb hbf hsize hlt hgrow hbuddy
    (show s.Mapped os size from hmapped)
  have hmark : P.mark (.order k) b.addr true .mapped = P .mapped :=
    Function.update_of_ne Slot.noConfusion _ _
  have hsized := (h.mark_free hb).tiling.sized
  constructor
  · intro houtcome
    obtain ⟨copy, q, t, heq, hreads, hblock⟩ := houtcome 0
    have hmapped : s.Mapped os size := by
      intro hvalid hlarge
      apply (hos hvalid hlarge).resolve_left
      intro hfailed
      have hq := (h.sreallocTraced_failed hb hsize hlt hgrow hbuddy hvalid hlarge hfailed heq).1
      obtain ⟨-, -, -, d, -, -, hdq, -⟩ | ⟨hnull, -⟩ := hblock
      · -- a payload has a header before it
        rw [Blk.payload, hq] at hdq
        have : 0 < metadataSize := by decide
        omega
      · exact absurd (hq.symm.trans hnull) (by decide)
    refine ⟨hreads.buddy (by rwa [Nat.mod_eq_of_lt hlt]), hmapped, fun hserved => ?_⟩
    obtain ⟨hnull, -⟩ | ⟨q', t', P', hq, -, hre, hsmalloc, heq'⟩ := hmove hmapped
    · exact absurd hserved (hserves.mp hnull)
    · obtain ⟨rfl, hret⟩ := Prod.mk.inj (Option.some.inj (heq.symm.trans (heq' 0)))
      obtain ⟨rfl, rfl⟩ := Prod.mk.inj hret
      have halloc := smalloc_allocates (P.mark (.order k) b.addr true) os size
      rw [hsmalloc] at halloc
      rw [← h.granted_of_allocates hre.ready hsized hmark halloc hq]
      exact hreads.copied _ rfl
  · rintro ⟨hflag, hmapped, hcopied⟩ junk
    obtain ⟨-, heq⟩ | ⟨q, t, P', hq, -, hre, hserved, heq⟩ := hmove hmapped
    · refine ⟨none, 0, s, heq junk, ⟨fun _ => hflag, ?_⟩, Or.inr ⟨rfl, rfl⟩⟩
      -- nothing is copied
      intro copy hcopy
      cases hcopy
    · obtain ⟨l, d, hd, hdf, hdq, hdsize⟩ := hre.block
      refine ⟨_, q, t, heq junk, ⟨fun _ => hflag, ?_⟩,
        Or.inl ⟨l, _, hre.ready.repr.blocks_eq l, d, hd, hdf, hdq, hdsize⟩⟩
      intro copy hcopy
      obtain rfl := Option.some.inj hcopy
      have halloc := smalloc_allocates (P.mark (.order k) b.addr true) os size
      rw [hserved] at hserves halloc
      rw [h.granted_of_allocates hre.ready hsized hmark halloc hq]
      exact hcopied (not_not.mp (mt hserves.mpr hq))

/-- **When `srealloc` of a pool block has the outcome it should**: the total size does not wrap
around, and

- the block is large enough,
- or the header at its buddy address can be read and is not marked free, a mapping that the new
  block needs is granted, and if there is a block to move to, the header's length behind the old
  block is granted as well, since the copy goes on over it,
- or the headers at its buddy addresses pass the test of the loop from its own order up to one that
  is large enough, and the header's length behind what the block becomes is granted. -/
theorem srealloc_outcome_iff (h : Ready r s P) (hb : b ∈ P (.order k)) (hbf : b.isFree = false)
    (hsize : 1 ≤ size) (hword : size < wordLimit) (hos : s.MmapAnswers os size) :
    ReallocOutcome s os b size ↔ size + metadataSize < wordLimit ∧
      (size + metadataSize ≤ b.size ∨
        (MD.isFree s.mem (b.addr ^^^ b.size) = false ∧
          (b.addr ^^^ b.size) + metadata.off .is_free ∈ s.Granted ∧ s.Mapped os size ∧
          (P.Serves size → Set.Ico b.payload (b.payload + b.size) ⊆ s.GrantedFor os size)) ∨
        ∃ j ≤ maxOrder, size + metadataSize ≤ sizeAt j ∧
          (∀ m, k ≤ m → m < j → PassesTest s.mem (b.addr ^^^ sizeAt m)) ∧
          Set.Ico b.payload (b.payload + sizeAt j) ⊆ s.Granted) := by
  by_cases hlt : size + metadataSize < wordLimit
  swap
  · exact iff_of_false (h.not_outcome_wrap hb hsize hword (not_lt.mp hlt)) fun hcond => hlt hcond.1
  rw [and_iff_right hlt]
  by_cases hroom : size + metadataSize ≤ b.size
  · refine iff_of_true (fun junk => ⟨_, _, _, h.sreallocTraced_keep hb hsize hlt hroom,
      ⟨fun hgrow => ?_, nofun⟩, Or.inl ((h.repr.hasBlock_iff hb).mpr ⟨hbf, hroom⟩)⟩)
      (Or.inl hroom)
    rw [Nat.mod_eq_of_lt hlt] at hgrow
    exact absurd hroom (not_le.mpr hgrow)
  rw [or_iff_right hroom]
  have hgrow := not_le.mp hroom
  cases hfree : MD.isFree s.mem (b.addr ^^^ b.size) with
  | true =>
    rw [h.outcome_grow_iff hb hbf hsize hlt hgrow hfree]
    simp only [Bool.true_eq_false, false_and, false_or]
  | false =>
    rw [h.outcome_move_iff hb hbf hsize hlt hgrow hfree hos, or_iff_left]
    · simp only [true_and]
    · -- the first header on the way is the one at the buddy address
      rintro ⟨j, hj, hfits, htests, -⟩
      obtain ⟨hk, hbsize⟩ := h.tiling.sized k b hb
      have hkj : k < j := lt_of_sizeAt_lt hk (hbsize ▸ hgrow.trans_le hfits)
      have htest := (htests k le_rfl hkj).1
      rw [← hbsize, hfree] at htest
      exact Bool.noConfusion htest

/-- The only block in use of a new pool, as above. -/
theorem srealloc_outcome_iff_sample :
    ∃ s P, Ready sampleAnswers.sbrked s P ∧ sampleBlk 0 128 false ∈ P (.order 0) ∧
      ReallocOutcome s sampleAnswers (sampleBlk 0 128 false) 300 := by
  obtain ⟨s, P, -, hready, hlow⟩ := exists_first_block
  have hb : sampleBlk 0 128 false ∈ P (.order 0) := by
    rw [hlow.zero]
    exact List.mem_cons_self
  have hzero : sampleBlk 128 128 true ∈ P (.order 0) := by
    rw [hlow.zero]
    exact List.mem_cons_of_mem _ List.mem_cons_self
  have hone : sampleBlk 256 256 true ∈ P (.order 1) := by
    rw [hlow.one]
    exact List.mem_cons_self
  have hos : s.MmapAnswers sampleAnswers 300 := fun _ hlarge => absurd hlarge (by decide)
  refine ⟨s, P, hready, hb, (srealloc_outcome_iff hready hb rfl (by decide) (by decide) hos).mpr
    ⟨by decide, Or.inr (Or.inr ⟨2, by decide, by decide, fun m _ hm => ?_, ?_⟩)⟩⟩
  · obtain rfl | rfl : m = 0 ∨ m = 1 := by omega
    · exact (hready.repr.passesTest_iff hzero).mpr ⟨rfl, by decide⟩
    · exact (hready.repr.passesTest_iff hone).mpr ⟨rfl, by decide⟩
  · exact hready.Ico_subset_granted (by decide) (by decide)

/-- **A chain that is too short**: the block is made larger once, and then the loop stops at a block
in use, without a result. -/
theorem not_reallocOutcome_short :
    ∃ s es t P, client.init s ∧ client.Run s es t ∧ Ready sampleAnswers.sbrked t.heap P ∧
      sampleBlk 128 128 false ∈ P (.order 0) ∧ (sampleBlk 128 128 false).payload ∈ t.live ∧
      ¬ ReallocOutcome t.heap sampleAnswers (sampleBlk 128 128 false) 300 := by
  obtain ⟨s, es, t, P, hs, hrun, -, hready, hlow, hlive⟩ := exists_two_freed
  have hmem : ∀ c ∈ [sampleBlk 0 128 true, sampleBlk 128 128 false, sampleBlk 256 128 true,
      sampleBlk 384 128 false], c ∈ P (.order 0) := by
    rw [hlow.zero]
    exact fun c hc => hc
  have hbuddy := hmem (sampleBlk 0 128 true) (by decide)
  have hused := hmem (sampleBlk 384 128 false) (by decide)
  have hb := hmem (sampleBlk 128 128 false) (by decide)
  refine ⟨s, es, t, P, hs, hrun, hready, hb, hlive, fun houtcome => ?_⟩
  obtain ⟨j, hj, hfits, htests, -⟩ := (hready.outcome_grow_iff hb rfl (by decide) (by decide)
    (by decide) (hready.repr.node _ _ hbuddy).isFree).mp houtcome
  have hj1 : 1 < j := lt_of_sizeAt_lt (by decide) (lt_of_lt_of_le (by decide) hfits)
  have hfree := ((hready.repr.passesTest_iff hused).mp (htests 1 (Nat.zero_le 1) hj1)).1
  exact Bool.noConfusion hfree

/-! ### What is copied -/

/-- **The copy of `srealloc`** is as long as the old block with its header, or longer. -/
theorem Ready.sreallocTraced_copy {copy : Copy} (h : Ready r s P) (hb : b ∈ P (.order k))
    (hbf : b.isFree = false) (hword : size < wordLimit) (hos : s.MmapAnswers os size)
    (heq : s.sreallocTraced os junk b.payload size = some (some copy, q, t)) :
    copy.src = b.payload ∧ b.size ≤ copy.len := by
  have hnone : ∀ {x : ℕ × Heap}, some (none, x) ≠ some (some copy, q, t) := fun hx =>
    absurd (congrArg Prod.fst (Option.some.inj hx)) (Option.some_ne_none _).symm
  -- three ways to return without a copy
  rcases Nat.eq_zero_or_pos size with rfl | hsize
  · rw [Heap.sreallocTraced, if_pos rfl] at heq
    exact absurd heq hnone
  by_cases hlt : size + metadataSize < wordLimit
  swap
  · rw [h.sreallocTraced_wrap hb hsize hword (not_lt.mp hlt)] at heq
    exact absurd heq hnone
  by_cases hroom : size + metadataSize ≤ b.size
  · rw [h.sreallocTraced_eq hb hsize, Nat.mod_eq_of_lt hlt, if_pos hroom] at heq
    exact absurd heq hnone
  have hgrow := not_le.mp hroom
  cases hfree : MD.isFree s.mem (b.addr ^^^ b.size) with
  | true =>
    rw [h.sreallocTraced_eq hb hsize, Nat.mod_eq_of_lt hlt, if_neg hroom, if_pos hfree] at heq
    obtain ⟨⟨assigned, s'⟩, hloop, heq⟩ := Option.bind_eq_some_iff.mp heq
    obtain ⟨s'', -, heq⟩ := Option.map_eq_some_iff.mp heq
    obtain rfl := Option.some.inj (congrArg Prod.fst heq)
    -- the loop never makes the block smaller
    refine ⟨rfl, ?_⟩
    have hends := h.growLoop hb hbf hgrow
    rw [hloop] at hends
    rw [(h.tiling.sized k b hb).2]
    cases hends with
    | unassigned hgrown hkn hn _ _ =>
      exact (sizeAt_mono hkn hn).trans (hgrown.repr.node _ _ hgrown.cur_mem).size.ge
    | assigned hgrown hkn hn _ _ =>
      exact (sizeAt_mono hkn.le hn).trans (hgrown.repr.node _ _ hgrown.cur_mem).size.ge
  | false =>
    by_cases hmapped : s.Mapped os size
    · obtain ⟨-, hnull⟩ | ⟨q', t', P', -, -, -, -, hmove⟩ :=
        h.sreallocTraced_move hb hbf hsize hlt hgrow hfree hmapped
      · exact absurd ((hnull junk).symm.trans heq) hnone
      · have hcopy := Option.some.inj
          (congrArg Prod.fst (Option.some.inj ((hmove junk).symm.trans heq)))
        rw [← hcopy]
        exact ⟨rfl, le_rfl⟩
    · rw [Heap.Mapped] at hmapped
      push Not at hmapped
      obtain ⟨hvalid, hlarge, hnot⟩ := hmapped
      have hfailed := (hos hvalid hlarge).resolve_right hnot
      have hcopy := Option.some.inj
        (h.sreallocTraced_failed hb hsize hlt hgrow hfree hvalid hlarge hfailed heq).2
      rw [hcopy]
      exact ⟨rfl, le_rfl⟩

end OsHomework.Malloc3
