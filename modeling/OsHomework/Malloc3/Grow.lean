import OsHomework.Malloc3.Ready

/-!
# The merging loop of `srealloc`

The loop makes the block at `current` larger in place. In each round it takes the header at the
buddy address for a block of the same size: it removes from the list of that size whatever block has
the `address` the header holds, doubles the size of `current` and puts it in the next list. It does
not look at which of the two lies lower, nor at the size of the other one.

`Grown` is what the rounds from the order `k` to the order `n` do to the lists, `growLoop_ends` the
three ways the loop can end: out of the bounds of `mdListArr`, without having assigned a result, or
with the block at an order that is large enough.
-/

namespace OsHomework.Malloc3

variable {s s' s'' : Heap} {P P' P'' : Lists} {G H : Set ℕ} {m m' m'' : Mem} {i : Slot}
  {b c : Blk} {a q k n new_size : ℕ}

/-! ### Fields that are read -/

/-- What the loop reads of the header at `q` has not changed. -/
structure SameFields (m m' : Mem) (q : ℕ) : Prop where
  size : MD.size m' q = MD.size m q
  isFree : MD.isFree m' q = MD.isFree m q
  address : MD.address m' q = MD.address m q

namespace SameFields

theorem trans (h : SameFields m m' q) (h' : SameFields m' m'' q) : SameFields m m'' q :=
  ⟨h'.size.trans h.size, h'.isFree.trans h.isFree, h'.address.trans h.address⟩

/-- All fields the same. -/
theorem of_get (h : ∀ f, metadata.get f m' q = metadata.get f m q) : SameFields m m' q := by
  refine ⟨h .size, ?_, h .address⟩
  rw [MD.isFree, MD.isFree, h .is_free]

/-- A block that is in the lists before and after. -/
theorem of_mem (h : s.Repr P) (h' : s'.Repr P') (hc : c ∈ P i) (hc' : c ∈ P' i) :
    SameFields s.mem s'.mem c.addr where
  size := (h'.node i c hc').size.trans (h.node i c hc).size.symm
  isFree := (h'.node i c hc').isFree.trans (h.node i c hc).isFree.symm
  address := ((h'.list i).address _ (List.mem_map_of_mem hc')).trans
    ((h.list i).address _ (List.mem_map_of_mem hc)).symm

/-- A place apart from all headers that were handled. -/
theorem of_frame (hf : Frame H s s') (hG : Apart G) (hH : H ⊆ G) (hq : q ∈ G) (hqH : q ∉ H) :
    SameFields s.mem s'.mem q := by
  refine of_get (hf.get_eq fun a ha => (hG.sep a (hH ha) q hq).resolve_left ?_)
  rintro rfl
  exact hqH ha

/-- Removing a block leaves all other headers of `G` alone, whether they are in the lists or not. -/
theorem of_remove (h : s.Repr P) (h' : s'.Repr (P.remove i a)) (hf : Frame P.addrs s s')
    (hG : Apart G) (hPG : P.addrs ⊆ G) (hq : q ∈ G) (hqa : q ≠ a) : SameFields s.mem s'.mem q := by
  by_cases hqP : q ∈ P.addrs
  · obtain ⟨j, d, hd, rfl⟩ := hqP
    exact .of_mem h h' hd (Lists.mem_remove.mpr ⟨hd, fun _ => hqa⟩)
  · exact .of_frame hf hG hPG hq hqP

theorem of_insert (h : s.Repr P) (h' : s'.Repr (P.insert i b))
    (hf : Frame (Insert.insert b.addr P.addrs) s s') (hG : Apart G)
    (hPG : Insert.insert b.addr P.addrs ⊆ G) (hq : q ∈ G) (hqb : q ≠ b.addr) :
    SameFields s.mem s'.mem q := by
  by_cases hqP : q ∈ P.addrs
  · obtain ⟨j, d, hd, rfl⟩ := hqP
    exact .of_mem h h' hd (Lists.mem_insert.mpr (Or.inr hd))
  · refine .of_frame hf hG hPG hq ?_
    rintro (rfl | hmem)
    · exact hqb rfl
    · exact hqP hmem

end SameFields

namespace Heap.Repr

/-- **`delMD` of any header** removes the block that has its `address`, if there is one. -/
theorem delMD_any (h : s.Repr P) (hG : Apart G) (hPG : P.addrs ⊆ G) (i : Slot) (md : ℕ) :
    ∃ s', s.delMD i md = some s' ∧ s'.Repr (P.remove i (MD.address s.mem md - metadataSize)) ∧
      Frame P.addrs s s' ∧ ∀ q ∈ G, SameFields s.mem s'.mem q := by
  by_cases hex : ∃ c ∈ P i, c.payload = MD.address s.mem md
  · obtain ⟨c, hc, haddr⟩ := hex
    have hown : MD.address s.mem c.addr = c.payload := (h.list i).address _ (List.mem_map_of_mem hc)
    obtain ⟨s', heq, hrepr, hfl, hframe⟩ := h.delMD hc
    have hpos : MD.address s.mem md - metadataSize = c.addr := by
      rw [← haddr]
      exact Nat.add_sub_cancel _ _
    have heq' : s.delMD i md = some s' := by
      rw [← heq, Heap.delMD, Heap.delMD, MDList.delMD_congr (haddr.symm.trans hown.symm)]
    refine ⟨s', heq', hpos ▸ hrepr, hframe, fun q hq => ?_⟩
    by_cases hqc : q = c.addr
    · -- the header that was removed is left with its size, flag and address
      rw [hqc]
      exact ⟨hfl.node.size.trans (h.node _ _ hc).size.symm,
        hfl.node.isFree.trans (h.node _ _ hc).isFree.symm, hfl.address.trans hown.symm⟩
    · exact .of_remove h hrepr hframe hG hPG hq hqc
  · have hnone : ∀ c ∈ P i, c.payload ≠ MD.address s.mem md := fun c hc heq => hex ⟨c, hc, heq⟩
    refine ⟨s, h.delMD_of_address hnone, ?_, .refl, fun q _ => ⟨rfl, rfl, rfl⟩⟩
    rw [Lists.remove_of_notMem]
    · exact h
    · intro c hc heq
      have hpos := h.apart.pos _ (Lists.addr_mem hc)
      apply hnone c hc
      rw [Blk.payload]
      omega

end Heap.Repr

/-! ### Rounds -/

/-- The header at `q` passes the test of the loop. -/
def PassesTest (m : Mem) (q : ℕ) : Prop := MD.isFree m q = true ∧ MD.size m q < size128K

instance : Decidable (PassesTest m q) := inferInstanceAs (Decidable (_ ∧ _))

/-- The rounds of the loop that make the block at `a`, of the order `k`, one of the order `n`: in
each list `l` on the way, the block with the `address` that the header at `a ^^^ sizeAt l` holds is
gone. -/
structure Grown (G : Set ℕ) (a k n : ℕ) (s : Heap) (P : Lists) (s' : Heap) (P' : Lists) : Prop where
  repr : s'.Repr P'
  frame : Frame P.addrs s s'
  addrs : P'.addrs ⊆ P.addrs
  fields : ∀ q ∈ G, q ≠ a → SameFields s.mem s'.mem q
  tests : ∀ l, k ≤ l → l < n → PassesTest s.mem (a ^^^ sizeAt l)
  mapped : P' .mapped = P .mapped
  mem : ∀ i c, c ∈ P' i ↔ (i = .order n ∧ c = ⟨a, sizeAt n, false⟩) ∨
    c ∈ P i ∧ c.addr ≠ a ∧ ∀ l, k ≤ l → l < n → i = .order l →
      c.addr ≠ MD.address s.mem (a ^^^ sizeAt l) - metadataSize

namespace Grown

/-- No round. -/
theorem refl (h : s.Repr P) (hcur : (⟨a, sizeAt k, false⟩ : Blk) ∈ P (.order k)) :
    Grown G a k k s P s P := by
  refine ⟨h, .refl, subset_rfl, fun q _ _ => ⟨rfl, rfl, rfl⟩, fun l h1 h2 => by omega, rfl,
    fun i c => ?_⟩
  constructor
  · intro hc
    by_cases hca : c.addr = a
    · obtain ⟨rfl, rfl⟩ := h.eq_of_addr hc hcur hca
      exact Or.inl ⟨rfl, rfl⟩
    · exact Or.inr ⟨hc, hca, fun l h1 h2 => by omega⟩
  · rintro (⟨rfl, rfl⟩ | ⟨hc, -⟩)
    · exact hcur
    · exact hc

theorem cur_mem (h : Grown G a k n s P s' P') : (⟨a, sizeAt n, false⟩ : Blk) ∈ P' (.order n) :=
  (h.mem _ _).mpr (Or.inl ⟨rfl, rfl⟩)

/-- Rounds after rounds. -/
theorem trans {n' : ℕ} (h : Grown G a k n s P s' P') (h' : Grown G a n n' s' P' s'' P'')
    (hkn : k ≤ n) (hnn : n ≤ n') (hgrid : ∀ l < n', a ^^^ sizeAt l ∈ G ∧ a ^^^ sizeAt l ≠ a) :
    Grown G a k n' s P s'' P'' := by
  -- what the later rounds read is as the earlier ones found it
  have hsame : ∀ l < n', SameFields s.mem s'.mem (a ^^^ sizeAt l) :=
    fun l hl => h.fields _ (hgrid l hl).1 (hgrid l hl).2
  refine ⟨h'.repr, h.frame.trans (h'.frame.mono h.addrs), h'.addrs.trans h.addrs,
    fun q hq hqa => (h.fields q hq hqa).trans (h'.fields q hq hqa), fun l h1 h2 => ?_,
    h'.mapped.trans h.mapped, fun i c => ?_⟩
  · rcases Nat.lt_or_ge l n with hl | hl
    · exact h.tests l h1 hl
    · have htest := h'.tests l hl h2
      rwa [PassesTest, (hsame l h2).isFree, (hsame l h2).size] at htest
  · rw [h'.mem]
    refine or_congr_right ⟨?_, ?_⟩
    · rintro ⟨hc, hca, hdrop⟩
      obtain ⟨-, rfl⟩ | ⟨hc, -, hdrop'⟩ := (h.mem _ _).mp hc
      · exact absurd rfl hca
      · refine ⟨hc, hca, fun l h1 h2 hi => ?_⟩
        rcases Nat.lt_or_ge l n with hl | hl
        · exact hdrop' l h1 hl hi
        · rw [← (hsame l h2).address]
          exact hdrop l hl h2 hi
    · rintro ⟨hc, hca, hdrop⟩
      refine ⟨(h.mem _ _).mpr (Or.inr ⟨hc, hca, fun l h1 h2 => hdrop l h1 (h2.trans_le hnn)⟩), hca,
        fun l h1 h2 hi => ?_⟩
      rw [(hsame l h2).address]
      exact hdrop l (hkn.trans h1) h2 hi

end Grown

/-- The calls that make up one round. -/
theorem growLoop_succ {fuel j : ℕ} {s₁ s₂ s₃ : Heap} (htest : PassesTest s.mem q)
    (hindex : findSizeIndexInList (MD.size s.mem a) = some j) (hj : j ≠ maxOrder)
    (hdel : s.delMD (.order j) a = some s₁) (hdel' : s₁.delMD (.order j) q = some s₂)
    (hadd : (s₂.setMem (metadata.set .size s₂.mem a (MD.size s₂.mem a * 2 % wordLimit))).addMD
      (.order (j + 1)) a = some s₃) :
    Heap.growLoop a new_size (fuel + 1) q s =
      if new_size ≤ MD.size s₃.mem a then some (some (MD.address s₃.mem a), s₃)
      else Heap.growLoop a new_size fuel (a ^^^ MD.size s₃.mem a) s₃ := by
  have hcond : (MD.isFree s.mem q && decide (MD.size s.mem q < size128K)) = true := by
    rw [htest.1, decide_eq_true htest.2]
    rfl
  rw [Heap.growLoop, if_pos hcond, hindex]
  simp only [Option.bind_eq_bind, Option.bind_some, hdel, hdel', if_neg hj, hadd]
  rfl

/-- The lists after one round: what the block at `a` was goes, and so does whatever has the
`address` that the header at the buddy address holds. -/
theorem Heap.Repr.mem_grown {d : Blk} {x : ℕ} (h : s.Repr P) (hcur : b ∈ P (.order k)) :
    c ∈ ((P.remove (.order k) b.addr).remove (.order k) x).insert (.order (k + 1)) d i ↔
      (i = .order (k + 1) ∧ c = d) ∨ c ∈ P i ∧ c.addr ≠ b.addr ∧ (i = .order k → c.addr ≠ x) := by
  rw [Lists.mem_insert, Lists.mem_remove, Lists.mem_remove]
  refine or_congr_right ⟨?_, ?_⟩
  · rintro ⟨⟨hc, hne⟩, hdrop⟩
    exact ⟨hc, fun heq => hne (h.once i _ c hc _ hcur heq) heq, hdrop⟩
  · rintro ⟨hc, hne, hdrop⟩
    exact ⟨⟨hc, fun _ => hne⟩, hdrop⟩

/-- **One round of the loop.** -/
theorem growLoop_round (fuel : ℕ) (h : s.Repr P) (hG : Apart G) (hPG : P.addrs ⊆ G)
    (hcur : (⟨a, sizeAt k, false⟩ : Blk) ∈ P (.order k)) (hk : k < maxOrder)
    (hgrid : a ^^^ sizeAt k ∈ G) (hne : a ^^^ sizeAt k ≠ a)
    (htest : PassesTest s.mem (a ^^^ sizeAt k)) :
    ∃ s' P', Grown G a k (k + 1) s P s' P' ∧
      Heap.growLoop a new_size (fuel + 1) (a ^^^ sizeAt k) s
        = if new_size ≤ sizeAt (k + 1) then some (some (a + metadataSize), s')
          else Heap.growLoop a new_size fuel (a ^^^ sizeAt (k + 1)) s' := by
  have haP : a ∈ P.addrs := Lists.addr_mem hcur
  have hword : sizeAt k * 2 < wordLimit := by
    rw [← sizeAt_succ hk]
    exact sizeAt_lt_word hk
  -- both headers are taken out of the list
  obtain ⟨s₁, heq₁, hrepr₁, hfl₁, hframe₁⟩ := h.delMD hcur
  have hsub₁ : (P.remove (.order k) a).addrs ⊆ P.addrs := Lists.addrs_remove_subset
  obtain ⟨s₂, heq₂, hrepr₂, hframe₂, hsame₂⟩ :=
    hrepr₁.delMD_any hG (hsub₁.trans hPG) (.order k) (a ^^^ sizeAt k)
  have hsame₁ : ∀ q ∈ G, q ≠ a → SameFields s.mem s₁.mem q := fun q hq hqa =>
    .of_remove h hrepr₁ hframe₁ hG hPG hq hqa
  -- the second `delMD` reads the `address` that was there before the first
  rw [(hsame₁ _ hgrid hne).address] at hrepr₂
  set P₂ := (P.remove (.order k) a).remove (.order k)
    (MD.address s.mem (a ^^^ sizeAt k) - metadataSize) with hP₂
  have hsub₂ : P₂.addrs ⊆ P.addrs := Lists.addrs_remove_subset.trans hsub₁
  have hnotMem₂ : a ∉ P₂.addrs := fun hmem => hfl₁.notMem (Lists.addrs_remove_subset hmem)
  have hfl₂ : Floating s₂.mem P₂ (.order k) ⟨a, sizeAt k, false⟩ := by
    refine hfl₁.frame hframe₂ (fun x hx => ?_) (h.apart.mono (Set.insert_subset haP hsub₂)) hnotMem₂
    apply (h.apart.sep x (hsub₁ hx) a haP).resolve_left
    rintro rfl
    exact hfl₁.notMem hx
  -- the size is doubled while the header is in no list
  set m₃ := metadata.set .size s₂.mem a (sizeAt k * 2) with hm₃
  have hrepr₃ : (s₂.setMem m₃).Repr P₂ :=
    hrepr₂.of_apart hfl₂.apart hnotMem₂ fun x hx => Layout.set_apply_out hx
  obtain ⟨s₄, heq₄, hrepr₄, hframe₄⟩ := hrepr₃.addMD (hfl₂.resize (k + 1) hword)
  rw [← sizeAt_succ hk] at hrepr₄
  have hframe₃ : Frame P.addrs s₂ (s₂.setMem m₃) := .set_field haP
  have hsub₄ : Insert.insert a P₂.addrs ⊆ P.addrs := Set.insert_subset haP hsub₂
  have hsame₄ : ∀ q ∈ G, q ≠ a → SameFields s₂.mem s₄.mem q := by
    intro q hq hqa
    have hapart := (hG.sep a (hPG haP) q hq).resolve_left hqa.symm
    have hset : SameFields s₂.mem m₃ q := .of_get fun f => Layout.get_set_of_apart hapart
    exact hset.trans (.of_insert hrepr₃ hrepr₄ hframe₄ hG (hsub₄.trans hPG) hq hqa)
  refine ⟨s₄, _, ⟨hrepr₄, ?_, ?_, ?_, ?_, ?_, fun i c => ?_⟩, ?_⟩
  · exact ((hframe₁.trans (hframe₂.mono hsub₁)).trans hframe₃).trans (hframe₄.mono hsub₄)
  · rw [Lists.addrs_insert]
    exact hsub₄
  · exact fun q hq hqa => (hsame₁ q hq hqa).trans ((hsame₂ q hq).trans (hsame₄ q hq hqa))
  · intro l h1 h2
    obtain rfl : l = k := by omega
    exact htest
  · have hne : Slot.mapped ≠ .order k ∧ Slot.mapped ≠ .order (k + 1) :=
      ⟨Slot.noConfusion, Slot.noConfusion⟩
    rw [Lists.insert, Function.update_of_ne hne.2, hP₂, Lists.remove, Function.update_of_ne hne.1,
      Lists.remove, Function.update_of_ne hne.1]
  · refine (h.mem_grown hcur).trans
      (or_congr_right (and_congr_right fun _ => and_congr_right fun _ => ?_))
    constructor
    · intro hdrop l h1 h2 hi
      obtain rfl : l = k := by omega
      exact hdrop hi
    · exact fun hdrop => hdrop k le_rfl (Nat.lt_succ_self k)
  · -- what the loop reads of the header after the round
    have hmem₄ : (⟨a, sizeAt (k + 1), false⟩ : Blk) ∈
        P₂.insert (.order (k + 1)) ⟨a, sizeAt (k + 1), false⟩ (.order (k + 1)) :=
      Lists.self_mem_insert _ _ _
    have hsize₄ : MD.size s₄.mem a = sizeAt (k + 1) := (hrepr₄.node _ _ hmem₄).size
    have haddr₄ : MD.address s₄.mem a = a + metadataSize :=
      (hrepr₄.list _).address _ (List.mem_map_of_mem hmem₄)
    have hindex : findSizeIndexInList (MD.size s.mem a) = some k := by
      rw [(h.node _ _ hcur).size]
      exact findSizeIndexInList_sizeAt hk.le
    have hadd : (s₂.setMem (metadata.set .size s₂.mem a (MD.size s₂.mem a * 2 % wordLimit))).addMD
        (.order (k + 1)) a = some s₄ := by
      rw [hfl₂.node.size, Nat.mod_eq_of_lt hword]
      exact heq₄
    rw [growLoop_succ htest hindex hk.ne heq₁ heq₂ hadd, hsize₄, haddr₄]

/-- How the loop ends, from the block at `a` of the order `k`. -/
inductive GrowEnds (G : Set ℕ) (a k new_size : ℕ) (s : Heap) (P : Lists) :
    Option (Option ℕ × Heap) → Prop
  /-- There is no list for the doubled size. -/
  | outOfBounds (hbig : sizeAt maxOrder < new_size) : GrowEnds G a k new_size s P none
  /-- A header does not pass the test before the block is large enough. -/
  | unassigned {n : ℕ} {s' : Heap} {P' : Lists} (hgrown : Grown G a k n s P s' P') (hkn : k ≤ n)
      (hn : n ≤ maxOrder) (hsmall : sizeAt n < new_size)
      (hstop : n < maxOrder → ¬ PassesTest s.mem (a ^^^ sizeAt n)) :
      GrowEnds G a k new_size s P (some (none, s'))
  | assigned {n : ℕ} {s' : Heap} {P' : Lists} (hgrown : Grown G a k n s P s' P') (hkn : k < n)
      (hn : n ≤ maxOrder) (hfits : new_size ≤ sizeAt n) (hsmall : sizeAt (n - 1) < new_size) :
      GrowEnds G a k new_size s P (some (some (a + metadataSize), s'))

theorem xor_sizeAt_ne {l : ℕ} (hl : l ≤ maxOrder) : a ^^^ sizeAt l ≠ a :=
  Heap.Repr.xor_size_ne (sizeAt_pos hl).ne'

/-- Rounds before the loop goes on. -/
theorem GrowEnds.after {R : Option (Option ℕ × Heap)} {n : ℕ} (h : GrowEnds G a n new_size s' P' R)
    (hgrown : Grown G a k n s P s' P') (hkn : k ≤ n) (hgrid : ∀ l < maxOrder, a ^^^ sizeAt l ∈ G) :
    GrowEnds G a k new_size s P R := by
  have hgrid' : ∀ n' ≤ maxOrder, ∀ l < n', a ^^^ sizeAt l ∈ G ∧
    a ^^^ sizeAt l ≠ a := fun n' hn' l hl =>
    ⟨hgrid l (hl.trans_le hn'), xor_sizeAt_ne (hl.le.trans hn')⟩
  cases h with
  | outOfBounds hbig => exact .outOfBounds hbig
  | unassigned hgrown' hle hn hsmall hstop =>
    refine .unassigned (hgrown.trans hgrown' hkn hle (hgrid' _ hn)) (hkn.trans hle) hn hsmall ?_
    intro hlt htest
    have hsame := hgrown.fields _ (hgrid _ hlt) (xor_sizeAt_ne hn)
    apply hstop hlt
    rwa [PassesTest, hsame.isFree, hsame.size]
  | assigned hgrown' hlt hn hfits hsmall =>
    exact .assigned (hgrown.trans hgrown' hkn hlt.le (hgrid' _ hn))
      (hkn.trans_lt hlt) hn hfits hsmall

/-- A round at the largest order leaves `mdListArr`. -/
theorem growLoop_maxOrder (fuel : ℕ) (h : s.Repr P)
    (hcur : (⟨a, sizeAt maxOrder, false⟩ : Blk) ∈ P (.order maxOrder))
    (htest : PassesTest s.mem q) : Heap.growLoop a new_size (fuel + 1) q s = none := by
  obtain ⟨s₁, heq₁, hrepr₁, -, -⟩ := h.delMD hcur
  obtain ⟨s₂, heq₂, -⟩ := hrepr₁.delMD_any hrepr₁.apart subset_rfl (.order maxOrder) q
  have hcond : (MD.isFree s.mem q && decide (MD.size s.mem q < size128K)) = true := by
    rw [htest.1, decide_eq_true htest.2]
    rfl
  have hindex : findSizeIndexInList (MD.size s.mem a) = some maxOrder := by
    rw [(h.node _ _ hcur).size]
    exact findSizeIndexInList_sizeAt le_rfl
  rw [Heap.growLoop, if_pos hcond, hindex]
  simp only [Option.bind_eq_bind, Option.bind_some, heq₁, heq₂, if_true]

/-- **The merging loop of `srealloc`** ends in one of the three ways. -/
theorem growLoop_ends {fuel : ℕ} (h : s.Repr P) (hG : Apart G) (hPG : P.addrs ⊆ G)
    (hcur : (⟨a, sizeAt k, false⟩ : Blk) ∈ P (.order k)) (hk : k ≤ maxOrder)
    (hsmall : sizeAt k < new_size) (hgrid : ∀ l < maxOrder, a ^^^ sizeAt l ∈ G)
    (hfuel : maxOrder < fuel + k) :
    GrowEnds G a k new_size s P (Heap.growLoop a new_size fuel (a ^^^ sizeAt k) s) := by
  induction fuel generalizing k s P with
  | zero => omega
  | succ fuel ih =>
    by_cases htest : PassesTest s.mem (a ^^^ sizeAt k)
    · rcases Nat.lt_or_eq_of_le hk with hlt | rfl
      · obtain ⟨s', P', hgrown, heq⟩ :=
          growLoop_round fuel h hG hPG hcur hlt (hgrid k hlt) (xor_sizeAt_ne hk) htest
        rw [heq]
        split_ifs with hfits
        · exact .assigned hgrown (Nat.lt_succ_self k) hlt hfits hsmall
        · exact (ih hgrown.repr (hgrown.addrs.trans hPG) hgrown.cur_mem hlt (not_le.mp hfits)
            (by omega)).after hgrown (Nat.le_succ k) hgrid
      · rw [growLoop_maxOrder fuel h hcur htest]
        exact .outOfBounds hsmall
    · have hcond : ¬ (MD.isFree s.mem (a ^^^ sizeAt k) &&
          decide (MD.size s.mem (a ^^^ sizeAt k) < size128K)) = true := by
        rw [Bool.and_eq_true, decide_eq_true_iff]
        exact htest
      rw [Heap.growLoop, if_neg hcond]
      exact .unassigned (.refl h hcur) le_rfl hk hsmall fun _ => htest

end OsHomework.Malloc3
