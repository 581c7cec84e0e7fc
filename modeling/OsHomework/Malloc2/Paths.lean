import OsHomework.Malloc2.Blocks

/-!
# The three allocation paths of `malloc_2`

`smalloc`, `scalloc` and `srealloc` each write out the search, the counters, the new header and the
list append. They differ in the order of these writes: `smalloc` clears the link of the new header
before the append does, the others do not (`initCleared`, `initBlock`). On a well-formed heap the
append hides the difference (`Repr.link_initBlock`), so that `scalloc` is `smalloc` and a `memset`,
and `srealloc` is `smalloc`, a `memcpy` and an `sfree` (`Repr.scalloc_eq`, `Repr.srealloc_eq`).

That `memcpy` is as long as the request, although the old payload is shorter. If the block that it
moves to is a reused one far below, it goes on above the program break, and the call faults instead
of returning. `allocation_paths_agree_iff` states when the paths agree, with what all three choose:
the lowest free block that is large enough, and a new one only if there is none.
-/

namespace OsHomework.Malloc2

namespace Heap

variable {s t : Heap} {bs : List Blk} {b c : Blk} {outcome : Option ℕ} {size r q n : ℕ}

/-! ### One path -/

/-- The bytes of the link of the header at `r`. -/
def linkBytes (r : ℕ) : Set ℕ :=
  Set.Ico (r + metadata.off .next) (r + metadata.off .next + metadata.width .next)

theorem initBlock_eqOn : Set.EqOn (initBlock size r s).mem (initCleared size r s).mem
    (linkBytes r)ᶜ := by
  intro x hx
  -- a byte outside the link
  have hx' : ¬ (r + 16 ≤ x ∧ x < r + 16 + 8) := hx
  simp only [initBlock, initCleared, assign, Layout.set, Mem.storeLE, metadata]
  split_ifs <;> first | rfl | omega

/-- The append writes the link of the new header, whatever it was. -/
theorem Repr.link_congr {m m' : Mem} (h : ({ s with mem := m } : Heap).Repr bs)
    (h' : ({ s with mem := m' } : Heap).Repr bs) (hm : Set.EqOn m m' (linkBytes r)ᶜ) :
    ({ s with mem := m } : Heap).link r = ({ s with mem := m' } : Heap).link r := by
  -- the last write to memory is the one to the link
  have hlast : ∀ {m₁ m₂ : Mem}, Set.EqOn m₁ m₂ (linkBytes r)ᶜ →
      metadata.set .next m₁ r 0 = metadata.set .next m₂ r 0 := Layout.set_eq_of_eqOn
  rw [Heap.link, Heap.link]
  by_cases hnil : s.globalPointersList = 0
  · -- the first block: the link is written in the new header only
    rw [if_pos hnil, if_pos hnil]
    simp only [assign, hlast (Layout.set_eqOn hm)]
  · -- the loop to the last block meets no byte of the new header
    have hlen := h.length_lt
    rw [← List.length_map (f := Blk.addr)] at hlen
    rw [if_neg hnil, if_neg hnil, scan_miss h.chain (fun _ _ => rfl) hlen,
      scan_miss h'.chain (fun _ _ => rfl) hlen]
    simp only [assign, Option.bind_eq_bind, Option.bind_some,
      hlast (Layout.set_eqOn (Layout.set_eqOn hm))]

/-- A header written above all blocks is none of theirs. -/
theorem Repr.of_init {init : ℕ → Heap → Heap} (h : s.Repr bs) (hinit : Initialises size init)
    (habove : ∀ b ∈ bs, b.fin ≤ r) : (init r s).Repr bs := by
  -- a header writes its own bytes, which lie above the break
  obtain ⟨m, heq, hout⟩ := hinit.frame r s
  rw [heq]
  refine h.congr (fun x hx => hout x (Or.inl ?_)) rfl le_rfl h.brk_lt
  obtain ⟨b, hb, -, hx⟩ := hx
  have hfin := habove b hb
  rw [Blk.payload] at hx
  rw [Blk.fin] at hfin
  omega

/-- **Both ways to write the new header** end in the same heap. -/
theorem Repr.link_initBlock (h : s.Repr bs) (hsize : size < wordLimit)
    (habove : ∀ b ∈ bs, b.fin ≤ r) :
    (initBlock size r s).link r = (initCleared size r s).link r :=
  Repr.link_congr (h.of_init (initBlock_initialises hsize) habove)
    (h.of_init (initCleared_initialises hsize) habove) initBlock_eqOn

/-- What `sbrk` grants. -/
theorem sbrk_eq_some {p : ℕ} (h : s.sbrk outcome n = some (p, t)) :
    ∃ gap, outcome = some gap ∧ s.brk + gap + n < wordLimit ∧ s.brk + gap = p ∧
      ({ s with brk := s.brk + gap + n } : Heap) = t := by
  cases outcome with
  | none => exact absurd h (by simp [Heap.sbrk])
  | some gap =>
    rw [Heap.sbrk] at h
    split_ifs at h with hlt
    obtain ⟨h1, h2⟩ := Prod.ext_iff.mp (Option.some.inj h)
    exact ⟨gap, rfl, hlt, h1, h2⟩

/-- The path of `scalloc` and `srealloc` is that of `smalloc`, with their own work at the end. -/
theorem Repr.allocate_initBlock (h : s.Repr bs) (hsize : size < wordLimit)
    (finish : ℕ → Heap → Heap) :
    s.allocate outcome size (initBlock size) finish
      = (s.allocate outcome size (initCleared size) fun _ t => t).map
          fun x => (x.1, if x.1 = 0 then x.2 else finish x.1 x.2) := by
  have hpos : ∀ a, a + metadataSize ≠ 0 := fun a => Nat.succ_ne_zero _
  rw [Heap.allocate, Heap.allocate, h.findFree_eq]
  simp only [Option.bind_eq_bind, Option.bind_some]
  by_cases hfound : (bs.find? (Blk.fitsRequest size)).elim 0 Blk.addr = 0
  · rw [if_neg (not_not.mpr hfound), if_neg (not_not.mpr hfound)]
    cases hsbrk : s.sbrk outcome (size + metadataSize) with
    | none => rfl
    | some x =>
      obtain ⟨newBlock, s'⟩ := x
      -- a break that was granted lies above all blocks
      obtain ⟨gap, hgap, hlt, rfl, rfl⟩ := sbrk_eq_some hsbrk
      have hgrown :
          (({ s with brk := s.brk + gap + (size + metadataSize) } : Heap).countNew size).Repr bs :=
        h.congr (fun _ _ => rfl) rfl (by show s.brk ≤ s.brk + gap + _; omega) hlt
      dsimp only
      rw [hgrown.link_initBlock hsize fun b hb => (h.below b hb).trans (Nat.le_add_right _ _)]
      cases (initCleared size (s.brk + gap) _).link (s.brk + gap) with
      | none => rfl
      | some t => simp only [Option.bind_some, Option.pure_def, Option.map_some, if_neg (hpos _)]
  · rw [if_pos hfound, if_pos hfound]
    simp only [Option.pure_def, Option.map_some, if_neg (hpos _)]

/-- `smalloc` of a size that is accepted. -/
theorem smalloc_of_valid (hpos : 1 ≤ size) (hmax : size ≤ maxRequest) :
    s.smalloc outcome size = s.allocate outcome size (initCleared size) fun _ t => t := by
  rw [smalloc_eq_allocate, if_neg (Nat.pos_iff_ne_zero.mp hpos), if_neg (not_lt.mpr hmax)]

/-- **`scalloc`** is `smalloc` of the product and a `memset`. -/
theorem Repr.scalloc_eq {num : ℕ} (h : s.Repr bs) (hnum : 1 ≤ num) (hsize : 1 ≤ size)
    (hlt : num * size < wordLimit) :
    s.scalloc outcome num size = (s.smalloc outcome (num * size)).map
      fun x => (x.1, if x.1 = 0 then x.2 else x.2.memset x.1 (num * size)) := by
  have hpos : 1 ≤ num * size := Nat.mul_pos hnum hsize
  rw [scalloc_eq_allocate]
  simp only [Nat.mul_comm size num, Nat.mod_eq_of_lt hlt]
  rw [if_neg (by omega)]
  split_ifs with hmax
  · rw [Heap.smalloc, if_neg (by omega), if_pos hmax]
    rfl
  · rw [smalloc_of_valid hpos (not_lt.mp hmax)]
    exact h.allocate_initBlock hlt _

/-- **`srealloc`** of a block that is too small is `smalloc`, a `memcpy` and an `sfree`. -/
theorem Repr.srealloc_eq {beyond : ℕ → UInt8} (h : s.Repr bs) (hb : b ∈ bs) (hgrow : b.size < size)
    (hmax : size ≤ maxRequest) :
    s.srealloc outcome beyond b.payload size = (s.smalloc outcome size).map
      fun x => (x.1, if x.1 = 0 then x.2 else
        (x.2.memcpy x.1 b.payload size b.size beyond).sfree b.payload) := by
  have hhdr : b.payload - metadataSize = b.addr := Nat.add_sub_cancel _ _
  have hpos : 1 ≤ size := Nat.one_le_of_lt hgrow
  rw [srealloc_eq_allocate, if_neg (h.payload_ne_zero hb), if_neg (by omega),
    if_neg (not_lt.mpr hmax), hhdr, h.size_eq b hb, if_neg (not_le.mpr hgrow),
    smalloc_of_valid hpos hmax]
  exact h.allocate_initBlock (hmax.trans_lt maxRequest_lt) _

/-- The trace leaves `srealloc` as it is. -/
theorem map_snd_sreallocTraced {oldp : ℕ} {beyond : ℕ → UInt8} :
    (s.sreallocTraced outcome beyond oldp size).map Prod.snd =
    s.srealloc outcome beyond oldp size := by
  rw [Heap.sreallocTraced, srealloc_eq_allocate]
  simp only
  split_ifs
  · exact (Option.map_map ..).trans Option.map_id'
  · rfl
  · rfl
  · rfl
  · exact (Option.map_map ..).trans Option.map_id'

/-- The copy that the trace shows for a block that is too small: it goes to the pointer that is
returned, and is as long as the request. -/
theorem Repr.sreallocTraced_eq {beyond : ℕ → UInt8} (h : s.Repr bs) (hb : b ∈ bs)
    (hgrow : b.size < size) (hmax : size ≤ maxRequest) :
    s.sreallocTraced outcome beyond b.payload size =
      (s.srealloc outcome beyond b.payload size).map
        fun x => (if x.1 = 0 then none else some ⟨x.1, b.payload, size⟩, x) := by
  have hhdr : b.payload - metadataSize = b.addr := Nat.add_sub_cancel _ _
  have h0 : size ≠ 0 := Nat.ne_zero_of_lt hgrow
  rw [srealloc_eq_allocate, Heap.sreallocTraced, if_neg (h.payload_ne_zero hb), if_neg h0,
    if_neg (not_lt.mpr hmax), if_neg (h.payload_ne_zero hb), if_neg h0, if_neg (not_lt.mpr hmax),
    hhdr, h.size_eq b hb, if_neg (not_le.mpr hgrow), if_neg (not_le.mpr hgrow)]

/-- A copy is made only for a block that is too small, and as long as the request. -/
theorem Repr.sreallocTraced_copy {beyond : ℕ → UInt8} {c : Copy} (h : s.Repr bs) (hb : b ∈ bs)
    (heq : s.sreallocTraced outcome beyond b.payload size = some (some c, q, t)) :
    b.size < size ∧ c = ⟨q, b.payload, size⟩ := by
  have hhdr : b.payload - metadataSize = b.addr := Nat.add_sub_cancel _ _
  rw [Heap.sreallocTraced, if_neg (h.payload_ne_zero hb), hhdr, h.size_eq b hb] at heq
  simp only at heq
  split_ifs at heq with h0 hmax hroom
  · exact absurd (congrArg Prod.fst (Option.some.inj heq)) (Option.some_ne_none _).symm
  · exact absurd (congrArg Prod.fst (Option.some.inj heq)) (Option.some_ne_none _).symm
  · exact absurd (congrArg Prod.fst (Option.some.inj heq)) (Option.some_ne_none _).symm
  · obtain ⟨x, -, hx⟩ := Option.map_eq_some_iff.mp heq
    obtain ⟨hcopy, hret⟩ := Prod.ext_iff.mp hx
    simp only at hcopy hret
    split_ifs at hcopy with hnull
    refine ⟨not_le.mp hroom, (Option.some.inj hcopy).symm.trans ?_⟩
    rw [hret]

/-! ### What is chosen -/

/-- First fit: the lowest free block that holds `size` bytes is returned and the break stays; if
there is none, the break, which others may have raised by a gap, is raised by the size of block and
header, or `sbrk` refuses and nothing happens. -/
def FirstFit (s : Heap) (bs : List Blk) (outcome : Option ℕ) (size q : ℕ) (t : Heap) : Prop :=
  (∃ b ∈ bs, b.isFree = true ∧ size ≤ b.size ∧
    (∀ c ∈ bs, c.isFree = true → size ≤ c.size → b.addr ≤ c.addr) ∧
    q = b.payload ∧ t.brk = s.brk) ∨
  (∀ c ∈ bs, c.isFree = true → c.size < size) ∧
    ((s.sbrk outcome (size + metadataSize) = none ∧ q = 0 ∧ t = s) ∨
      ∃ gap, outcome = some gap ∧ q = s.brk + gap + metadataSize ∧
        t.brk = s.brk + gap + (size + metadataSize))

theorem fitsRequest_iff : b.fitsRequest size = true ↔ b.isFree = true ∧ size ≤ b.size := by
  rw [Blk.fitsRequest, Bool.and_eq_true, decide_eq_true_iff, and_comm]

/-- The list is in order of addresses, so the first block that fits is the lowest. -/
theorem Repr.find?_lowest (h : s.Repr bs) (hfind : bs.find? (Blk.fitsRequest size) = some b)
    (hc : c ∈ bs) (hfree : c.isFree = true) (hfits : size ≤ c.size) : b.addr ≤ c.addr := by
  obtain ⟨-, pre, post, rfl, hpre⟩ := List.find?_eq_some_iff_append.mp hfind
  rcases List.mem_append.mp hc with hc | hc
  · -- a block before it does not fit
    have hskip := hpre c hc
    rw [fitsRequest_iff.mpr ⟨hfree, hfits⟩] at hskip
    exact absurd hskip (by decide)
  · rcases List.mem_cons.mp hc with rfl | hc
    · exact le_rfl
    · -- a block behind it lies higher
      have hapart := (List.pairwise_append.mp h.apart).2.1
      have hle := (List.pairwise_cons.mp hapart).1 c hc
      rw [Blk.fin] at hle
      omega

theorem Repr.allocate_firstFit (h : s.Repr bs) (outcome : Option ℕ) (hsize : size < wordLimit) :
    ∃ q t bs', s.allocate outcome size (initCleared size) (fun _ t => t) = some (q, t) ∧
      Allocates s bs size q t bs' ∧ FirstFit s bs outcome size q t := by
  obtain ⟨q, t, bs', halloc, heq⟩ : ∃ q t bs', Allocates s bs size q t bs' ∧
      s.allocate outcome size (initCleared size) (fun _ t => t) =
        some (q, if q = 0 then t else t) :=
    h.allocate (initCleared_initialises hsize)
  rw [ite_self] at heq
  refine ⟨q, t, bs', heq, halloc, ?_⟩
  cases hfind : bs.find? (Blk.fitsRequest size) with
  | some b =>
    -- a block is found, and reused
    obtain ⟨hfree, hfits⟩ := fitsRequest_iff.mp (List.find?_some hfind)
    refine Or.inl ⟨b, List.mem_of_find?_eq_some hfind, hfree, hfits,
      fun c hc => h.find?_lowest hfind hc, ?_⟩
    cases halloc with
    | refused hnone => exact absurd (hfind.symm.trans hnone) (by simp)
    | reused hfind' =>
      obtain rfl := Option.some.inj (hfind'.symm.trans hfind)
      exact ⟨rfl, rfl⟩
    | grown hnone => exact absurd (hfind.symm.trans hnone) (by simp)
  | none =>
    -- none is found, and the break is raised or the call refused
    refine Or.inr ⟨fun c hc hfree => not_le.mp fun hfits =>
      List.find?_eq_none.mp hfind c hc (fitsRequest_iff.mpr ⟨hfree, hfits⟩), ?_⟩
    rw [Heap.allocate, h.findFree_eq, hfind, Option.bind_eq_bind, Option.bind_some,
      Option.elim_none, if_neg (not_not.mpr rfl)] at heq
    cases hsbrk : s.sbrk outcome (size + metadataSize) with
    | none =>
      rw [hsbrk] at heq
      obtain ⟨h1, h2⟩ := Prod.ext_iff.mp (Option.some.inj heq)
      exact Or.inl ⟨rfl, h1.symm, h2.symm⟩
    | some x =>
      obtain ⟨gap, hgap, -, hp, -⟩ := sbrk_eq_some (p := x.1) (t := x.2) hsbrk
      rw [hsbrk] at heq
      obtain ⟨u, -, hu⟩ := Option.bind_eq_some_iff.mp heq
      have hq : x.1 + metadataSize = q := congrArg Prod.fst (Option.some.inj hu)
      refine Or.inr ⟨gap, hgap, by rw [hp, hq], ?_⟩
      -- the break of the heap that is returned is the one of the new block
      cases halloc with
      | refused => exact absurd hq (Nat.succ_ne_zero _)
      | reused hfind' => exact absurd (hfind.symm.trans hfind') (by simp)
      | @grown r =>
        rw [hp, Nat.add_right_cancel hq]

/-! ### Agreement -/

/-- The heaps differ in nothing but the `n` bytes at `q`, and hold the same blocks. -/
structure AgreeBut (t : Heap) (q n : ℕ) (t' : Heap) : Prop where
  globals : ∃ m, t' = { t with mem := m }
  mem : ∀ x, x < q ∨ q + n ≤ x → t'.mem x = t.mem x
  blocks : t'.blocks = t.blocks

/-- A block filled by the function that is about to return it. -/
theorem AgreeBut.blit (h : t.Repr bs) (hb : b ∈ bs) (hn : n ≤ b.size) (f : ℕ → UInt8) :
    t.AgreeBut b.payload n { t with mem := t.mem.blit b.payload n f } where
  globals := ⟨_, rfl⟩
  mem _ hx := Mem.blit_apply_out hx
  blocks := (h.blit hb hn f).blocks_eq.trans h.blocks_eq.symm

/-- Freeing a block of heaps that agree. -/
theorem AgreeBut.sfree {t' : Heap} (hagree : t.AgreeBut q n t') (h : t.Repr bs) (h' : t'.Repr bs)
    (hb : b ∈ bs) : (t.sfree b.payload).AgreeBut q n (t'.sfree b.payload) := by
  -- both heaps have the same blocks after it
  have hblocks := (h'.sfree hb).blocks_eq.trans (h.sfree hb).blocks_eq.symm
  obtain ⟨m, rfl⟩ := hagree.globals
  rw [h.sfree_eq hb, h'.sfree_eq hb] at hblocks ⊢
  split_ifs at hblocks ⊢
  · exact hagree
  · refine ⟨⟨_, rfl⟩, fun x hx => ?_, hblocks⟩
    have heq : Set.EqOn m t.mem {x | x < q ∨ q + n ≤ x} := hagree.mem
    exact Layout.set_eqOn heq hx

theorem Repr.smalloc_firstFit (h : s.Repr bs) (outcome : Option ℕ) (hpos : 1 ≤ size)
    (hmax : size ≤ maxRequest) :
    ∃ q t bs', s.smalloc outcome size = some (q, t) ∧ Allocates s bs size q t bs' ∧
      FirstFit s bs outcome size q t := by
  rw [smalloc_of_valid hpos hmax]
  exact h.allocate_firstFit outcome (hmax.trans_lt maxRequest_lt)

/-- Only the break of the resulting heap matters, unless `sbrk` has refused. -/
theorem FirstFit.congr {t' : Heap} (h : FirstFit s bs outcome size q t) (hbrk : t'.brk = t.brk)
    (hnull : q = 0 → t' = t) : FirstFit s bs outcome size q t' := by
  rcases h with ⟨b, hb, h1, h2, h3, hq, ht⟩ | ⟨hnone, ⟨h1, h2, h3⟩ | ⟨gap, h1, h2, h3⟩⟩
  · exact Or.inl ⟨b, hb, h1, h2, h3, hq, hbrk.trans ht⟩
  · exact Or.inr ⟨hnone, Or.inl ⟨h1, h2, (hnull h2).trans h3⟩⟩
  · exact Or.inr ⟨hnone, Or.inr ⟨gap, h1, h2, hbrk.trans h3⟩⟩

theorem brk_sfree (p : ℕ) : (s.sfree p).brk = s.brk := by
  simp only [Heap.sfree]
  split_ifs <;> rfl

/-- `scalloc` beside `smalloc`. -/
theorem Repr.scalloc_agrees {num : ℕ} (h : s.Repr bs) (hnum : 1 ≤ num) (hsize : 1 ≤ size)
    (hlt : num * size < wordLimit) :
    ∃ q t t', s.smalloc outcome (num * size) = some (q, t) ∧
      s.scalloc outcome num size = some (q, t') ∧ (q = 0 → t' = t) ∧
      (q ≠ 0 → t.AgreeBut q (num * size) t' ∧ ∀ i < num * size, t'.mem (q + i) = 0) ∧
      (num * size ≤ maxRequest → FirstFit s bs outcome (num * size) q t') := by
  rw [h.scalloc_eq hnum hsize hlt]
  by_cases hmax : num * size ≤ maxRequest
  · obtain ⟨q, t, bs', heq, halloc, hfit⟩ :=
      h.smalloc_firstFit outcome (Nat.mul_pos hnum hsize) hmax
    rw [heq]
    refine ⟨q, t, _, rfl, rfl, fun hq => if_pos hq, fun hq => ?_,
      fun _ => hfit.congr ?_ fun hq => if_pos hq⟩
    · obtain ⟨b, hb, rfl, -, hfits, -⟩ := halloc.exists_block h hq
      rw [if_neg hq]
      refine ⟨.blit (halloc.repr h) hb hfits fun _ => 0,
        fun i hi => if_pos ⟨Nat.le_add_right _ _, ?_⟩⟩
      exact Nat.add_lt_add_left hi _
    · dsimp only
      split_ifs <;> rfl
  · have hnull : s.smalloc outcome (num * size) = some (0, s) := by
      rw [Heap.smalloc, if_neg (by have := Nat.mul_pos hnum hsize; omega), if_pos (not_le.mp hmax)]
    rw [hnull]
    exact ⟨0, s, s, rfl, rfl, fun _ => rfl, fun h0 => absurd rfl h0, fun hle => absurd hle hmax⟩

/-- Where reads above the break fault, `srealloc` of a block that is too small is `smalloc`, a
`memcpy` and an `sfree`, if it makes no copy or the copy ends at the break. -/
theorem Repr.sreallocGuarded_eq {beyond : ℕ → UInt8} (h : s.Repr bs) (hb : b ∈ bs)
    (hgrow : b.size < size) (hmax : size ≤ maxRequest)
    (heq : s.smalloc outcome size = some (q, t)) :
    s.sreallocGuarded outcome beyond b.payload size =
      if q = 0 ∨ b.payload + size ≤ t.brk then some (q, if q = 0 then t else
        (t.memcpy q b.payload size b.size beyond).sfree b.payload)
      else none := by
  rw [Heap.sreallocGuarded, h.sreallocTraced_eq hb hgrow hmax, h.srealloc_eq hb hgrow hmax, heq]
  by_cases hq : q = 0
  · simp [hq]
  · have hbrk : ((t.memcpy q b.payload size b.size beyond).sfree b.payload).brk = t.brk :=
      brk_sfree _
    simp [hq, hbrk]

/-- A move that reads above the break: a free block is taken, so that the break stays, and the copy
from the old payload ends above it. -/
theorem Repr.copy_le_brk_iff (h : s.Repr bs) (hb : b ∈ bs)
    (hfit : FirstFit s bs outcome size q t) :
    (q = 0 ∨ b.payload + size ≤ t.brk) ↔
      ((∃ c ∈ bs, c.isFree = true ∧ size ≤ c.size) → b.payload + size ≤ s.brk) := by
  have hbelow := h.below b hb
  obtain ⟨c, hc, hfree, hsize, -, hq, hbrk⟩ | ⟨hnone, hnew⟩ := hfit
  · have hq0 : q ≠ 0 := by
      rw [hq]
      exact h.payload_ne_zero hc
    rw [or_iff_right hq0, hbrk]
    exact ⟨fun hle _ => hle, fun hle => hle ⟨c, hc, hfree, hsize⟩⟩
  · -- a new block lies above the old one, and with it the break
    refine iff_of_true ?_ ?_
    · obtain ⟨-, hq, -⟩ | ⟨gap, -, -, hbrk⟩ := hnew
      · exact Or.inl hq
      · rw [Blk.fin] at hbelow
        rw [hbrk, Blk.payload]
        exact Or.inr (by omega)
    · rintro ⟨c, hc, hfree, hsize⟩
      exact absurd (hnone c hc hfree) (not_lt.mpr hsize)

/-- The move of `b` into a block for `size` bytes agrees with `smalloc` and `sfree`: it returns, and
with the same pointer, list, counters and break. -/
def MoveAgrees (s : Heap) (bs : List Blk) (outcome : Option ℕ) (beyond : ℕ → UInt8) (b : Blk)
    (size : ℕ) : Prop :=
  ∃ q t t', s.smalloc outcome size = some (q, t) ∧
    s.sreallocGuarded outcome beyond b.payload size = some (q, t') ∧ (q = 0 → t' = t) ∧
    (q ≠ 0 → (t.sfree b.payload).AgreeBut q size t') ∧ FirstFit s bs outcome size q t'

/-- `srealloc` beside `smalloc` and `sfree`. -/
theorem Repr.moveAgrees_iff {beyond : ℕ → UInt8} (h : s.Repr bs) (hb : b ∈ bs)
    (hgrow : b.size < size) (hmax : size ≤ maxRequest) :
    MoveAgrees s bs outcome beyond b size ↔
      ((∃ c ∈ bs, c.isFree = true ∧ size ≤ c.size) → b.payload + size ≤ s.brk) := by
  obtain ⟨q, t, bs', heq, halloc, hfit⟩ :=
    h.smalloc_firstFit outcome (Nat.one_le_of_lt hgrow) hmax
  rw [← h.copy_le_brk_iff hb hfit]
  have hguarded : s.sreallocGuarded outcome beyond b.payload size = _ :=
    h.sreallocGuarded_eq hb hgrow hmax heq
  constructor
  · rintro ⟨q', t₁, t', -, hret, -⟩
    by_contra hcopy
    rw [hguarded, if_neg hcopy] at hret
    cases hret
  · intro hcopy
    rw [if_pos hcopy] at hguarded
    refine ⟨q, t, _, heq, hguarded, fun hq => if_pos hq, fun hq => ?_,
      hfit.congr ?_ fun hq => if_pos hq⟩
    · -- the copy stays in the new block
      obtain ⟨c, hc, rfl, -, hfits, -⟩ := halloc.exists_block h hq
      have hrepr := halloc.repr h
      rw [if_neg hq]
      exact AgreeBut.sfree (.blit hrepr hc hfits _) hrepr (hrepr.blit hc hfits _)
        (halloc.small_mem h hb hgrow).1
    · split_ifs
      · rfl
      · exact brk_sfree _

/-- `smalloc` with no free block that is large enough, and room above the break. -/
theorem Repr.smalloc_grown (h : s.Repr bs) (hpos : 1 ≤ size) (hmax : size ≤ maxRequest)
    (hnone : ∀ c ∈ bs, c.isFree = true → c.size < size)
    (hroom : s.brk + (size + metadataSize) < wordLimit) :
    ∃ t, s.smalloc (some 0) size = some (s.brk + metadataSize, t) ∧
      t.Repr (bs ++ [⟨s.brk, size, false⟩]) ∧ t.brk = s.brk + (size + metadataSize) := by
  obtain ⟨q, t, bs', heq, halloc, hfit⟩ := h.smalloc_firstFit (some 0) hpos hmax
  obtain ⟨c, hc, hfree, hsize, -⟩ | ⟨-, ⟨hsbrk, -⟩ | ⟨gap, hgap, hq, hbrk⟩⟩ := hfit
  · exact absurd (hnone c hc hfree) (not_lt.mpr hsize)
  · rw [Heap.sbrk, Nat.add_zero, if_pos hroom] at hsbrk
    cases hsbrk
  obtain rfl : 0 = gap := Option.some.inj hgap
  rw [Nat.add_zero] at hq hbrk
  subst hq
  refine ⟨t, heq, ?_, hbrk⟩
  generalize hq : s.brk + metadataSize = q at halloc
  cases halloc with
  | refused => exact absurd hq (Nat.succ_ne_zero _)
  | @reused b hfind =>
    obtain ⟨hfree, hsize⟩ := fitsRequest_iff.mp (List.find?_some hfind)
    exact absurd (hnone b (List.mem_of_find?_eq_some hfind) hfree) (not_lt.mpr hsize)
  | grown _ _ _ hrepr _ =>
    rw [Nat.add_right_cancel hq]
    exact hrepr

end Heap

/-- **The three copies of the allocation path agree**, for every well-formed heap and every answer
of `sbrk`: `scalloc` returns what `smalloc` of the product does, with the bytes cleared, and all
take the lowest free block that is large enough and raise the break only if there is none. With
`srealloc` of a block that is too small, which is to return what `smalloc` followed by `sfree` does,
they agree if and only if its copy, which is as long as the request, ends at or below the break or
the block is a new one. -/
theorem allocation_paths_agree_iff {s : Heap} {bs : List Blk} (h : s.Repr bs)
    (outcome : Option ℕ) :
    (∀ num size, 1 ≤ num → 1 ≤ size → num * size < wordLimit →
      ∃ q t t', s.smalloc outcome (num * size) = some (q, t) ∧
        s.scalloc outcome num size = some (q, t') ∧ (q = 0 → t' = t) ∧
        (q ≠ 0 → t.AgreeBut q (num * size) t' ∧ ∀ i < num * size, t'.mem (q + i) = 0) ∧
        (num * size ≤ maxRequest → s.FirstFit bs outcome (num * size) q t')) ∧
    (∀ b ∈ bs, b.isFree = false → ∀ size beyond, b.size < size → size ≤ maxRequest →
      (s.MoveAgrees bs outcome beyond b size ↔
        ((∃ c ∈ bs, c.isFree = true ∧ size ≤ c.size) → b.payload + size ≤ s.brk))) ∧
    ∀ size, 1 ≤ size → size ≤ maxRequest →
      ∃ q t, s.smalloc outcome size = some (q, t) ∧ s.FirstFit bs outcome size q t := by
  refine ⟨fun num size => h.scalloc_agrees, fun b hb _ size beyond => h.moveAgrees_iff hb,
    fun size hpos hmax => ?_⟩
  obtain ⟨q, t, -, heq, -, hfit⟩ := h.smalloc_firstFit outcome hpos hmax
  exact ⟨q, t, heq, hfit⟩

/-- `smalloc(1000)`, `smalloc(8)`, `smalloc(100)` and `sfree` of the first: `scalloc(10, 10)` takes
the free block, as `smalloc(100)` does, and so does `srealloc` of the second block for 100 bytes,
whose copy ends in the third. -/
theorem allocation_paths_agree_iff_reuse :
    ∃ (s : Heap) (bs : List Blk), s.Repr bs ∧
      bs = [⟨4096, 1000, true⟩, ⟨5128, 8, false⟩, ⟨5168, 100, false⟩] ∧
      (∃ t t', s.smalloc (some 0) 100 = some (4128, t) ∧
        s.scalloc (some 0) 10 10 = some (4128, t') ∧ t.AgreeBut 4128 100 t') ∧
      ∀ beyond, s.MoveAgrees bs (some 0) beyond ⟨5128, 8, false⟩ 100 := by
  obtain ⟨s₁, -, hr₁, hbrk₁⟩ := (Heap.Repr.fresh freshHeap_fresh).smalloc_grown
    (show 1 ≤ 1000 by decide) (by decide) (fun c hc => absurd hc List.not_mem_nil) (by decide)
  replace hbrk₁ : s₁.brk = 5128 := hbrk₁
  obtain ⟨s₂, -, hr₂, hbrk₂⟩ := hr₁.smalloc_grown (show 1 ≤ 8 by decide) (by decide) (by simp)
    (by rw [hbrk₁]; decide)
  replace hbrk₂ : s₂.brk = 5168 := hbrk₂.trans (by rw [hbrk₁]; rfl)
  obtain ⟨s₃, -, hr₃, hbrk₃⟩ := hr₂.smalloc_grown (show 1 ≤ 100 by decide) (by decide) (by simp)
    (by rw [hbrk₂]; decide)
  rw [hbrk₁, hbrk₂] at hr₃
  have hr : (s₃.sfree 4128).Repr [⟨4096, 1000, true⟩, ⟨5128, 8, false⟩, ⟨5168, 100, false⟩] :=
    hr₃.sfree (b := ⟨4096, 1000, false⟩) List.mem_cons_self
  have hbrk : (s₃.sfree 4128).brk = 5300 :=
    (Heap.brk_sfree 4128).trans (hbrk₃.trans (by rw [hbrk₂]; rfl))
  obtain ⟨hscalloc, hmove, hfirst⟩ := allocation_paths_agree_iff hr (some 0)
  refine ⟨s₃.sfree 4128, _, hr, rfl, ?_, fun beyond => ?_⟩
  · obtain ⟨q, t, t', heq, heq', -, hagree, -⟩ :=
      hscalloc 10 10 (by decide) (by decide) (by decide)
    obtain ⟨q', u, hq', hfit⟩ := hfirst 100 (by decide) (by decide)
    obtain ⟨rfl, rfl⟩ := Prod.mk.inj (Option.some.inj (hq'.symm.trans heq))
    -- only the first block is free
    obtain ⟨c, hc, hfree, -, -, rfl, -⟩ | ⟨hnone, -⟩ := hfit
    · obtain rfl : c = ⟨4096, 1000, true⟩ := by
        simp only [List.mem_cons, List.not_mem_nil, or_false] at hc
        obtain rfl | rfl | rfl := hc
        · rfl
        · cases hfree
        · cases hfree
      exact ⟨u, t', heq, heq', (hagree (by decide)).1⟩
    · exact absurd (hnone _ List.mem_cons_self rfl) (by decide)
  · refine (hmove ⟨5128, 8, false⟩ (by simp) rfl 100 beyond (by decide) (by decide)).mpr fun _ => ?_
    rw [hbrk]
    decide

/-- `smalloc(1000000)`, `smalloc(8)` and `sfree` of the first: `srealloc` of the second block for
1000000 bytes finds the first free, and copies from far above the break. -/
theorem srealloc_reads_above_break :
    ∃ s₁ s₂, freshHeap.smalloc (some 0) 1000000 = some (4128, s₁) ∧
      s₁.smalloc (some 0) 8 = some (1004160, s₂) ∧
      (s₂.sfree 4128).Repr [⟨4096, 1000000, true⟩, ⟨1004128, 8, false⟩] ∧
      (∃ t, (s₂.sfree 4128).smalloc (some 0) 1000000 = some (4128, t)) ∧
      ∀ beyond, (s₂.sfree 4128).sreallocGuarded (some 0) beyond 1004160 1000000 = none ∧
        ¬ (s₂.sfree 4128).MoveAgrees [⟨4096, 1000000, true⟩, ⟨1004128, 8, false⟩] (some 0) beyond
          ⟨1004128, 8, false⟩ 1000000 := by
  obtain ⟨s₁, h₁, hr₁, hbrk₁⟩ := (Heap.Repr.fresh freshHeap_fresh).smalloc_grown
    (show 1 ≤ 1000000 by decide) (by decide) (fun c hc => absurd hc List.not_mem_nil) (by decide)
  replace hbrk₁ : s₁.brk = 1004128 := hbrk₁
  obtain ⟨s₂, h₂, hr₂, hbrk₂⟩ := hr₁.smalloc_grown (show 1 ≤ 8 by decide) (by decide)
    (by simp) (by rw [hbrk₁]; decide)
  rw [hbrk₁] at h₂ hr₂ hbrk₂
  have hr : (s₂.sfree 4128).Repr [⟨4096, 1000000, true⟩, ⟨1004128, 8, false⟩] :=
    hr₂.sfree (b := ⟨4096, 1000000, false⟩) List.mem_cons_self
  have hbrk : (s₂.sfree 4128).brk = 1004168 := (Heap.brk_sfree 4128).trans hbrk₂
  obtain ⟨q, t, -, heq, -, hfit⟩ := hr.smalloc_firstFit (some 0) (show 1 ≤ 1000000 by decide)
    (by decide)
  -- only the first block is free
  obtain ⟨hq, hbrk'⟩ : q = 4128 ∧ t.brk = 1004168 := by
    obtain ⟨c, hc, hfree, -, -, hq, hbrk'⟩ | ⟨hnone, -⟩ := hfit
    · obtain rfl | rfl := List.mem_pair.mp hc
      · exact ⟨hq, hbrk'.trans hbrk⟩
      · cases hfree
    · exact absurd (hnone _ List.mem_cons_self rfl) (lt_irrefl _)
  subst hq
  have hnone : ∀ beyond,
      (s₂.sfree 4128).sreallocGuarded (some 0) beyond 1004160 1000000 = none := by
    intro beyond
    have hguarded : (s₂.sfree 4128).sreallocGuarded (some 0) beyond 1004160 1000000 = _ :=
      hr.sreallocGuarded_eq (b := ⟨1004128, 8, false⟩)
        (List.mem_cons_of_mem _ List.mem_cons_self) (by decide) (by decide) heq
    rw [hbrk', if_neg (by decide)] at hguarded
    exact hguarded
  refine ⟨s₁, s₂, h₁, h₂, hr, ⟨t, heq⟩, fun beyond => ⟨hnone beyond, ?_⟩⟩
  rintro ⟨q, u, u', -, hret, -⟩
  cases (hnone beyond).symm.trans hret

end OsHomework.Malloc2
