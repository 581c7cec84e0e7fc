import OsHomework.Malloc3.Lists
import Mathlib.Tactic.IntervalCases

/-!
# Allocating and freeing on the lists

The functions of `malloc_3` once more, on `Lists` in place of the memory: `take` splits a block,
`alloc` searches the orders, `merge` is the loop of `sfree`. They are what the pointer code computes
(`Repr.findExactSizeBlock`, `Repr.sfree`), and all reasoning about the pool is done on them.

The loop of `sfree` looks at a header it finds by address alone. `merge` follows it in all it does
to well-formed lists, a buddy of another size included, and is `none` only where the loop goes on
with the header of a smaller block, or reads an address that is no header.
-/

namespace OsHomework.Malloc3

/-! ### Sizes -/

theorem sizeAt_eq {k : ℕ} (hk : k ≤ maxOrder) : sizeAt k = 128 * 2 ^ k := by
  simp only [maxOrder] at hk
  interval_cases k <;> rfl

theorem sizeAt_pos {k : ℕ} (hk : k ≤ maxOrder) : 0 < sizeAt k := by
  rw [sizeAt_eq hk]
  positivity

theorem sizeAt_le {k : ℕ} (hk : k ≤ maxOrder) : sizeAt k ≤ size128K := by
  simp only [maxOrder] at hk
  interval_cases k <;> decide

theorem sizeAt_lt_word {k : ℕ} (hk : k ≤ maxOrder) : sizeAt k < wordLimit :=
  (sizeAt_le hk).trans_lt (by decide)

theorem sizeAt_succ {k : ℕ} (hk : k < maxOrder) : sizeAt (k + 1) = sizeAt k * 2 := by
  rw [sizeAt_eq hk, sizeAt_eq hk.le, pow_succ, Nat.mul_assoc]

theorem sizeAt_strictMono {j k : ℕ} (hjk : j < k) (hk : k ≤ maxOrder) : sizeAt j < sizeAt k := by
  rw [sizeAt_eq (hjk.le.trans hk), sizeAt_eq hk]
  exact Nat.mul_lt_mul_of_pos_left (Nat.pow_lt_pow_right (by decide) hjk) (by decide)

theorem sizeAt_mono {j k : ℕ} (hjk : j ≤ k) (hk : k ≤ maxOrder) : sizeAt j ≤ sizeAt k := by
  obtain rfl | hlt := Nat.eq_or_lt_of_le hjk
  · exact le_rfl
  · exact (sizeAt_strictMono hlt hk).le

theorem lt_of_sizeAt_lt {j k : ℕ} (hj : j ≤ maxOrder) (hlt : sizeAt j < sizeAt k) : j < k := by
  by_contra hkj
  exact absurd hlt (not_lt.mpr (sizeAt_mono (not_lt.mp hkj) hj))

/-- Two blocks fit in one of a larger order. -/
theorem sizeAt_mul_two_le {j k : ℕ} (hjk : j < k) (hk : k ≤ maxOrder) :
    sizeAt j * 2 ≤ sizeAt k := by
  rw [← sizeAt_succ (hjk.trans_le hk)]
  exact sizeAt_mono hjk hk

/-- Every size has room for a header. -/
theorem metadataSize_le_sizeAt {k : ℕ} (hk : k ≤ maxOrder) : metadataSize ≤ sizeAt k :=
  le_trans (by decide) (sizeAt_mono (Nat.zero_le k) hk)

theorem findSizeIndexInList_sizeAt {k : ℕ} (hk : k ≤ maxOrder) :
    findSizeIndexInList (sizeAt k) = some k := by
  simp only [maxOrder] at hk
  interval_cases k <;> rfl

/-- Only the largest order has the largest size. -/
theorem sizeAt_lt_128K {k : ℕ} (hk : k ≤ maxOrder) : sizeAt k < size128K ↔ k < maxOrder := by
  simp only [maxOrder] at hk ⊢
  interval_cases k <;> decide

/-! ### The functions on lists -/

/-- The block that `sfree` makes of a block and its buddy. -/
def Blk.merged (res neigh : Blk) : Blk := ⟨min res.addr neigh.addr, res.size * 2, true⟩

namespace Lists

/-- The upper halves split off the block at `a`, `n` times from the order `index` down. -/
def splitUpper (a : ℕ) : ℕ → ℕ → Lists → Lists
  | 0, _, P => P
  | n + 1, index, P => splitUpper a n (index - 1)
      (P.insert (.order (index - 1)) ⟨a + sizeAt (index - 1), sizeAt (index - 1), true⟩)

/-- Take the block `b` of the order `index`, split `n` times. -/
def take (P : Lists) (index n : ℕ) (b : Blk) : Lists :=
  if n = 0 then P.mark (.order index) b.addr false
  else (splitUpper b.addr n index (P.remove (.order index) b.addr)).insert (.order (index - n))
    ⟨b.addr, sizeAt (index - n), false⟩

/-- The search through the orders from `i` on. -/
def allocLoop (size : ℕ) : ℕ → ℕ → ℕ → Lists → ℕ × Lists
  | 0, _, _, P => (0, P)
  | n + 1, i, splitNum, P =>
    if size ≤ sizeAt i then
      match (P (.order i)).find? (Blk.fitsRequest size) with
      | some b => (b.payload, P.take i splitNum b)
      | none => allocLoop size n (i + 1) (splitNum + 1) P
    else allocLoop size n (i + 1) splitNum P

/-- `findExactSizeBlock_ChallengeZero` on lists. -/
def alloc (P : Lists) (size : ℕ) : ℕ × Lists := allocLoop size (maxOrder + 1) 0 0 P

/-- The pool block whose header is at `a`. -/
def lookup (P : Lists) (a : ℕ) : Option Blk :=
  (List.range (maxOrder + 1)).findSome? fun k => (P (.order k)).find? fun b => b.addr == a

/-- The lists after the blocks `res` and `neigh`, looked for in the list `i`, are made one. -/
def join (P : Lists) (i : ℕ) (res neigh : Blk) : Lists :=
  ((P.remove (.order i) res.addr).remove (.order i) neigh.addr).insert (.order (i + 1))
    (res.merged neigh)

/-- The loop of `sfree` on lists, entered with the free block `res`. -/
def merge : ℕ → Blk → Lists → Option Lists
  | 0, _, _ => none
  | fuel + 1, res, P =>
    match P.lookup (res.addr ^^^ res.size) with
    | none => none
    | some neigh =>
      if neigh.isFree = true ∧ res.size < size128K then
        match findSizeIndexInList res.size with
        | none => none
        | some i =>
          -- here the loop goes on with the header of a block of another size
          if neigh.addr < res.addr ∧ neigh.size ≠ res.size then none
          else if res.size * 2 = size128K then some (P.join i res neigh)
          else merge fuel (res.merged neigh) (P.join i res neigh)
      else some P

/-- `sfree` of a block in use, on lists. -/
def free (P : Lists) (i : Slot) (b : Blk) : Option Lists :=
  match i with
  | .mapped => some (P.remove .mapped b.addr)
  | .order k =>
    let P := P.mark (.order k) b.addr true
    if b.size = size128K then some P else merge (maxOrder + 1) { b with isFree := true } P

end Lists

/-! ### Splitting -/

/-- The room a split needs: every place where an upper half may start, of a free block with `size`
bytes or more, is on the grid `G`, and no block starts there. -/
def SplitRoom (G : Set ℕ) (size : ℕ) (P : Lists) : Prop :=
  ∀ k ≤ maxOrder, ∀ b ∈ P (.order k), b.fitsRequest size = true → ∀ j < k,
    b.addr + sizeAt j ∈ G ∧ b.addr + sizeAt j ∉ P.addrs

namespace Heap.Repr

variable {s : Heap} {P : Lists} {G : Set ℕ} {b : Blk} {index n k : ℕ}

/-- The loop of `splitBlocks_ChallengeZero`: the upper halves are new headers on the grid `G`, and
the header of the block that is split stays floating. -/
theorem splitLoop (h : s.Repr P) (hG : Apart G) (hPG : P.addrs ⊆ G) (hbG : b.addr ∈ G)
    (hfl : Floating s.mem P (.order k) b) (hn : n ≤ index) (hindex : index ≤ maxOrder)
    (hnew : ∀ j, index - n ≤ j → j < index → b.addr + sizeAt j ∈ G ∧ b.addr + sizeAt j ∉ P.addrs) :
    ∃ s', Heap.splitLoop b.addr n index s = some (index - n, s') ∧
      s'.Repr (Lists.splitUpper b.addr n index P) ∧
      Floating s'.mem (Lists.splitUpper b.addr n index P) (.order k) b ∧
      (Lists.splitUpper b.addr n index P).addrs ⊆ G ∧ Frame G s s' := by
  induction n generalizing index s P with
  | zero => exact ⟨s, rfl, h, hfl, hPG, .refl⟩
  | succ n ih =>
    obtain ⟨index, rfl⟩ : ∃ i, index = i + 1 := ⟨index - 1, by omega⟩
    have hindex' : index ≤ maxOrder := by omega
    have hpos := sizeAt_pos hindex'
    set new := b.addr + sizeAt index with hnewdef
    obtain ⟨hnewG, hnewP⟩ := hnew index (by omega) (by omega)
    have hbnew : new ≠ b.addr := by omega
    have hapart : Apart (Insert.insert new P.addrs) := hG.mono (Set.insert_subset hnewG hPG)
    -- the header of the upper half
    set m₁ := metaDataInit s.mem new (sizeAt index) true 0 0 (new + metadataSize) with hm₁
    have hinit : (s.setMem m₁).Repr P := h.of_apart hapart hnewP fun _ => metaDataInit_apply_out
    have hfloat : Floating m₁ P (.order index) ⟨new, sizeAt index, true⟩ :=
      .metaDataInit index hapart hnewP (sizeAt_lt_word hindex')
    obtain ⟨s₂, heq, hrepr, hframe⟩ := hinit.addMD hfloat
    have hframe₁ : Frame (Insert.insert new P.addrs) s (s.setMem m₁) :=
      .metaDataInit (Set.mem_insert _ _)
    have hframe₂ := hframe₁.trans hframe
    have hPG' : (P.insert (.order index) ⟨new, sizeAt index, true⟩).addrs ⊆ G := by
      rw [Lists.addrs_insert]
      exact Set.insert_subset hnewG hPG
    have hbP' : b.addr ∉ (P.insert (.order index) ⟨new, sizeAt index, true⟩).addrs := by
      rw [Lists.addrs_insert]
      rintro (heq | hmem)
      · exact hbnew heq.symm
      · exact hfl.notMem hmem
    have hfl' : Floating s₂.mem (P.insert (.order index) ⟨new, sizeAt index, true⟩)
        (.order k) b := by
      refine hfl.frame hframe₂ (fun a ha => ?_) (hG.mono (Set.insert_subset hbG hPG')) hbP'
      apply (hG.sep a (Set.insert_subset hnewG hPG ha) _ hbG).resolve_left
      rintro rfl
      exact hbP' (by rwa [Lists.addrs_insert])
    obtain ⟨s₃, heq₃, hrepr₃, hfl₃, hG₃, hframe₃⟩ := ih hrepr hPG' hfl' (by omega) hindex'
      fun j h1 h2 => by
        obtain ⟨hj, hjP⟩ := hnew j (by omega) (by omega)
        refine ⟨hj, ?_⟩
        rw [Lists.addrs_insert]
        rintro (heq | hmem)
        · have := sizeAt_strictMono h2 hindex'
          simp only at heq
          omega
        · exact hjP hmem
    refine ⟨s₃, ?_, hrepr₃, hfl₃, hG₃, (hframe₂.mono (Set.insert_subset hnewG hPG)).trans hframe₃⟩
    show ((s.setMem m₁).addMD (.order index) new).bind (Heap.splitLoop b.addr n index)
      = some (index + 1 - (n + 1), s₃)
    rw [heq, Option.bind_some, heq₃, Nat.add_sub_add_right]

/-- `splitBlocks_ChallengeZero` of a block of the list `index`, at least one time. -/
theorem splitBlocks (h : s.Repr P) (hG : Apart G) (hPG : P.addrs ⊆ G) (hb : b ∈ P (.order index))
    (hn0 : n ≠ 0) (hn : n ≤ index) (hindex : index ≤ maxOrder)
    (hnew : ∀ j, index - n ≤ j → j < index → b.addr + sizeAt j ∈ G ∧ b.addr + sizeAt j ∉ P.addrs) :
    ∃ s', s.splitBlocks_ChallengeZero b.addr index n = some s' ∧
      s'.Repr ((Lists.splitUpper b.addr n index (P.remove (.order index) b.addr)).insert
        (.order (index - n)) ⟨b.addr, sizeAt (index - n), false⟩) ∧ Frame G s s' := by
  have hbG : b.addr ∈ G := hPG (Lists.addr_mem hb)
  obtain ⟨s₁, heq₁, hrepr₁, hfl₁, hframe₁⟩ := h.delMD hb
  have hPG₁ : (P.remove (.order index) b.addr).addrs ⊆ G := Lists.addrs_remove_subset.trans hPG
  obtain ⟨s₂, heq₂, hrepr₂, hfl₂, hPG₂, hframe₂⟩ := hrepr₁.splitLoop hG hPG₁ hbG hfl₁ hn hindex
    fun j h1 h2 => ⟨(hnew j h1 h2).1, fun hmem => (hnew j h1 h2).2 (Lists.addrs_remove_subset hmem)⟩
  set m₃ := metaDataInit s₂.mem b.addr (sizeAt (index - n)) false 0 0 (b.addr + metadataSize)
    with hm₃
  -- the lower half that is left becomes the block in use
  have hinit : (s₂.setMem m₃).Repr
      (Lists.splitUpper b.addr n index (P.remove (.order index) b.addr)) :=
    hrepr₂.of_apart hfl₂.apart hfl₂.notMem fun _ => metaDataInit_apply_out
  have hfl₃ : Floating m₃ (Lists.splitUpper b.addr n index (P.remove (.order index) b.addr))
      (.order (index - n)) ⟨b.addr, sizeAt (index - n), false⟩ :=
    .metaDataInit (index - n) hfl₂.apart hfl₂.notMem (sizeAt_lt_word (by omega))
  obtain ⟨s₄, heq₄, hrepr₄, hframe₄⟩ := hinit.addMD hfl₃
  have hframe₃ : Frame G s₂ (s₂.setMem m₃) := .metaDataInit hbG
  refine ⟨s₄, ?_, hrepr₄, ((hframe₁.mono hPG).trans hframe₂).trans
    (hframe₃.trans (hframe₄.mono (Set.insert_subset hbG hPG₂)))⟩
  have haddr : MD.address s₂.mem b.addr = b.addr + metadataSize := hfl₂.address
  rw [Heap.splitBlocks_ChallengeZero, if_neg hn0]
  simp only [heq₁, heq₂, haddr, Option.bind_eq_bind, Option.bind_some]
  exact heq₄

/-- Taking the block that a search of the order `index` has found. -/
theorem take {size : ℕ} (h : s.Repr P) (hG : Apart G) (hPG : P.addrs ⊆ G)
    (hroom : SplitRoom G size P) (hb : b ∈ P (.order index)) (hfit : b.fitsRequest size = true)
    (hn : n ≤ index) (hindex : index ≤ maxOrder) :
    ∃ s', ((s.setMem (metadata.set .is_free s.mem b.addr 0)).splitBlocks_ChallengeZero b.addr
        index n) = some s' ∧
      (s'.setMem (metadata.set .is_free s'.mem b.addr 0)).Repr (P.take index n b) ∧
      Frame G s (s'.setMem (metadata.set .is_free s'.mem b.addr 0)) := by
  have hbG : b.addr ∈ G := hPG (Lists.addr_mem hb)
  have hmark : (s.setMem (metadata.set .is_free s.mem b.addr 0)).Repr
      (P.mark (.order index) b.addr false) := h.mark hb false
  have hb' : ({ b with isFree := false } : Blk) ∈
      P.mark (.order index) b.addr false (.order index) :=
    Lists.mem_mark.mpr ⟨b, hb, (if_pos ⟨rfl, rfl⟩).symm⟩
  have hframe : Frame G s (s.setMem (metadata.set .is_free s.mem b.addr 0)) := .set_field hbG
  by_cases hn0 : n = 0
  · -- nothing is split: the flag is cleared twice
    refine ⟨_, by rw [hn0, Heap.splitBlocks_ChallengeZero, if_pos rfl], ?_,
      hframe.trans (.set_field hbG)⟩
    rw [Lists.take, if_pos hn0]
    have hagain := hmark.mark hb' false
    rwa [Lists.mark_eq_self fun c hc hcb => ?_] at hagain
    obtain ⟨d, hd, rfl⟩ := Lists.mem_mark.mp hc
    split_ifs at hcb ⊢ with hd'
    · rfl
    · exact absurd ⟨rfl, hcb⟩ hd'
  · -- the upper halves get headers in free memory, the lower one goes to its new list
    have haddrs : (P.mark (.order index) b.addr false).addrs = P.addrs := Lists.addrs_mark
    obtain ⟨s', heq, hrepr, hframe'⟩ := hmark.splitBlocks hG (haddrs ▸ hPG) hb' hn0 hn hindex
      fun j _ hj => haddrs ▸ hroom index hindex b hb hfit j hj
    rw [Lists.remove_mark] at hrepr
    refine ⟨s', heq, ?_, (hframe.trans hframe').trans (.set_field hbG)⟩
    rw [Lists.take, if_neg hn0]
    have hmem := Lists.self_mem_insert (Lists.splitUpper b.addr n index
      (P.remove (.order index) b.addr)) (.order (index - n)) ⟨b.addr, sizeAt (index - n), false⟩
    have hagain := hrepr.mark hmem false
    rwa [Lists.mark_eq_self fun c hc hcb => ?_] at hagain
    obtain ⟨-, rfl⟩ := hrepr.eq_of_addr hc hmem hcb
    rfl

/-- The search through the orders. -/
theorem findExactLoop (h : s.Repr P) (hG : Apart G) (hPG : P.addrs ⊆ G) {size : ℕ}
    (hroom : SplitRoom G size P) {i splitNum : ℕ} (hi : i + n = maxOrder + 1)
    (hsplit : splitNum ≤ i) :
    ∃ s', Heap.findExactLoop size n i splitNum s
        = some ((Lists.allocLoop size n i splitNum P).1, s') ∧
      s'.Repr (Lists.allocLoop size n i splitNum P).2 ∧ Frame G s s' := by
  induction n generalizing i splitNum with
  | zero => exact ⟨s, rfl, h, .refl⟩
  | succ n ih =>
    rw [Heap.findExactLoop, Lists.allocLoop]
    by_cases hsize : size ≤ sizeAt i
    · rw [if_pos hsize, if_pos hsize]
      have hsearch : (s.mdListArr i).findFreeSizedBlock s.mem size = _ :=
        h.findFreeSizedBlock (.order i) size
      rw [hsearch]
      cases hfind : (P (.order i)).find? (Blk.fitsRequest size) with
      | none =>
        -- no free block of this order: one more split for the next
        obtain ⟨s', heq, hrepr, hframe⟩ := ih (show i + 1 + n = maxOrder + 1 by omega)
          (show splitNum + 1 ≤ i + 1 by omega)
        exact ⟨s', heq, hrepr, hframe⟩
      | some b =>
        -- the first free block of the order is taken
        have hb : b ∈ P (.order i) := List.mem_of_find?_eq_some hfind
        obtain ⟨s', heq, hrepr, hframe⟩ :=
          h.take hG hPG hroom hb (List.find?_some hfind) hsplit (by omega)
        refine ⟨_, ?_, hrepr, hframe⟩
        simp only [Option.elim_some, Option.bind_eq_bind, Option.bind_some, ne_eq,
          b.payload_ne_zero, not_false_eq_true, if_true, Blk.payload_sub, heq]
        rfl
    · rw [if_neg hsize, if_neg hsize]
      -- the order is too small
      exact ih (by omega) (by omega)

/-- **`findExactSizeBlock_ChallengeZero`** is `alloc` on the lists. -/
theorem findExactSizeBlock (h : s.Repr P) (hG : Apart G) (hPG : P.addrs ⊆ G)
    {size : ℕ} (hroom : SplitRoom G size P) :
    ∃ s', s.findExactSizeBlock_ChallengeZero size = some ((P.alloc size).1, s') ∧
      s'.Repr (P.alloc size).2 ∧ Frame G s s' :=
  h.findExactLoop hG hPG hroom (Nat.zero_add _) le_rfl

end Heap.Repr

/-! ### Merging -/

namespace Lists

variable {P : Lists} {a k : ℕ} {b : Blk}

/-- Every pool block is in the list of its size. -/
def Sized (P : Lists) : Prop := ∀ k, ∀ b ∈ P (.order k), k ≤ maxOrder ∧ b.size = sizeAt k

theorem Sized.remove (h : P.Sized) (i : Slot) (a : ℕ) : (P.remove i a).Sized :=
  fun k b hb => h k b (mem_remove.mp hb).1

theorem Sized.insert (h : P.Sized) (hk : k ≤ maxOrder) (hb : b.size = sizeAt k) :
    (P.insert (.order k) b).Sized := by
  intro j c hc
  obtain ⟨hj, rfl⟩ | hc := mem_insert.mp hc
  · obtain rfl := Slot.order.inj hj
    exact ⟨hk, hb⟩
  · exact h j c hc

theorem Sized.mark (h : P.Sized) (i : Slot) (a : ℕ) (v : Bool) : (P.mark i a v).Sized := by
  intro k b hb
  obtain ⟨c, hc, rfl⟩ := mem_mark.mp hb
  have := h k c hc
  split_ifs <;> exact this

/-- A merged block starts where one of the two did. -/
theorem min_addr_mem {i j : Slot} {c : Blk} (hb : b ∈ P i) (hc : c ∈ P j) :
    min b.addr c.addr ∈ P.addrs := by
  obtain hle | hle := le_total b.addr c.addr
  · rw [min_eq_left hle]
    exact addr_mem hb
  · rw [min_eq_right hle]
    exact addr_mem hc

theorem addrs_join_subset {i j l : ℕ} {c : Blk} (hb : b ∈ P (.order i)) (hc : c ∈ P (.order j)) :
    (P.join l b c).addrs ⊆ P.addrs := by
  rw [join, addrs_insert]
  exact Set.insert_subset (min_addr_mem hb hc) (addrs_remove_subset.trans addrs_remove_subset)

theorem mem_of_lookup (h : P.lookup a = some b) :
    ∃ k ≤ maxOrder, b ∈ P (.order k) ∧ b.addr = a := by
  obtain ⟨k, hk, hfind⟩ := List.exists_of_findSome?_eq_some h
  refine ⟨k, Nat.lt_succ_iff.mp (List.mem_range.mp hk), List.mem_of_find?_eq_some hfind, ?_⟩
  simpa using List.find?_some hfind

end Lists

namespace Heap.Repr

variable {s : Heap} {P : Lists} {a k : ℕ} {b : Blk}

/-- The two `delMD` of a round of the merging loop, for a buddy that is not a smaller block below:
the header at the lower address is left floating, and the lists are without the two blocks. -/
theorem delPair {i : ℕ} {res neigh : Blk} (h : s.Repr P) (hsized : P.Sized)
    (hres : res ∈ P (.order i)) {j : ℕ} (hneigh : neigh ∈ P (.order j))
    (hne : neigh.addr ≠ res.addr) (hlow : ¬ (neigh.addr < res.addr ∧ neigh.size ≠ res.size)) :
    ∃ s₁ s₂ f, s.delMD (.order i) res.addr = some s₁ ∧ s₁.delMD (.order i) neigh.addr = some s₂ ∧
      s₂.Repr ((P.remove (.order i) res.addr).remove (.order i) neigh.addr) ∧
      Floating s₂.mem ((P.remove (.order i) res.addr).remove (.order i) neigh.addr) (.order i) f ∧
      MD.address s₂.mem res.addr = res.payload ∧ MD.address s₂.mem neigh.addr = neigh.payload ∧
      f.addr = min res.addr neigh.addr ∧ f.size = res.size ∧ Frame P.addrs s s₂ := by
  obtain ⟨s₁, heq₁, hrepr₁, hfl₁, hframe₁⟩ := h.delMD hres
  have hneigh₁ : neigh ∈ P.remove (.order i) res.addr (.order j) :=
    Lists.mem_remove.mpr ⟨hneigh, fun _ => hne⟩
  have hnmem : neigh.addr ∈ (P.remove (.order i) res.addr (.order j)).map Blk.addr :=
    List.mem_map_of_mem hneigh₁
  by_cases hj : j = i
  · obtain rfl := hj
    -- a buddy of the same size: both headers float
    obtain ⟨s₂, heq₂, hrepr₂, hfl₂, hframe₂⟩ := hrepr₁.delMD hneigh₁
    have hsub : ((P.remove (.order j) res.addr).remove (.order j) neigh.addr).addrs ⊆
        (P.remove (.order j) res.addr).addrs := Lists.addrs_remove_subset
    have hfl₁' : Floating s₂.mem ((P.remove (.order j) res.addr).remove (.order j) neigh.addr)
        (.order j) res := by
      refine hfl₁.frame hframe₂ (fun a ha => ?_) (hfl₁.apart.mono (Set.insert_subset_insert hsub))
        fun hmem => hfl₁.notMem (hsub hmem)
      apply (hfl₁.apart.sep a (Set.mem_insert_of_mem _ ha) _ (Set.mem_insert _ _)).resolve_left
      rintro rfl
      exact hfl₁.notMem ha
    have hframe : Frame P.addrs s s₂ := hframe₁.trans (hframe₂.mono Lists.addrs_remove_subset)
    have hsizes : neigh.size = res.size := by
      rw [(hsized j neigh hneigh).2, (hsized j res hres).2]
    obtain hlt | hgt := lt_or_gt_of_ne hne
    · exact ⟨s₁, s₂, neigh, heq₁, heq₂, hrepr₂, hfl₂, hfl₁'.address, hfl₂.address,
        (min_eq_right hlt.le).symm, hsizes, hframe⟩
    · exact ⟨s₁, s₂, res, heq₁, heq₂, hrepr₂, hfl₁', hfl₁'.address, hfl₂.address,
        (min_eq_left hgt.le).symm, rfl, hframe⟩
  · -- a buddy of another size stays in its list
    have hother : ∀ c ∈ P.remove (.order i) res.addr (.order i), c.addr ≠ neigh.addr := by
      intro c hc heq
      have := hrepr₁.once (.order i) (.order j) c hc neigh hneigh₁ heq
      exact hj (Slot.order.inj this).symm
    have haddr : MD.address s₁.mem neigh.addr = neigh.payload :=
      (hrepr₁.list (.order j)).address _ hnmem
    have heq₂ := hrepr₁.delMD_of_notMem hother haddr
    have hsizes : neigh.size ≠ res.size := by
      have hi := hsized i res hres
      have hj' := hsized j neigh hneigh
      rw [hi.2, hj'.2]
      intro heq
      have h1 := findSizeIndexInList_sizeAt hi.1
      have h2 := findSizeIndexInList_sizeAt hj'.1
      rw [heq, h1] at h2
      exact hj (Option.some.inj h2).symm
    have hlt : res.addr < neigh.addr :=
      lt_of_le_of_ne (not_lt.mp fun hlt => hlow ⟨hlt, hsizes⟩) hne.symm
    rw [Lists.remove_of_notMem hother]
    exact ⟨s₁, s₁, res, heq₁, heq₂, hrepr₁, hfl₁, hfl₁.address, haddr, (min_eq_left hlt.le).symm,
      rfl, hframe₁⟩

/-- One round of the merging loop, with all that it reads. -/
theorem mergeLoop_round (fuel : ℕ) {i j : ℕ} {res neigh : Blk} (h : s.Repr P) (hsized : P.Sized)
    (hres : res ∈ P (.order i)) (hneigh : neigh ∈ P (.order j))
    (hlt : res.size < size128K) (hfree : neigh.isFree = true) (hne : neigh.addr ≠ res.addr)
    (hlow : ¬ (neigh.addr < res.addr ∧ neigh.size ≠ res.size)) :
    ∃ s', s'.Repr (P.join i res neigh) ∧ Frame P.addrs s s' ∧
      Heap.mergeLoop (fuel + 1) res.addr neigh.addr s
        = if res.size * 2 = size128K then some s'
          else Heap.mergeLoop fuel (res.merged neigh).addr
            ((res.merged neigh).addr ^^^ (res.merged neigh).size) s' := by
  obtain ⟨hi, hsize⟩ := hsized i res hres
  obtain ⟨s₁, s₂, f, heq₁, heq₂, hrepr₂, hfl₂, haddrr, haddrn, hfaddr, hfsize, hframe⟩ :=
    h.delPair hsized hres hneigh hne hlow
  have hword : res.size * 2 < wordLimit := by
    simp only [size128K, wordLimit] at hlt ⊢
    omega
  have hfmem : f.addr ∈ P.addrs := hfaddr ▸ Lists.min_addr_mem hres hneigh
  -- the lower header grows and is put in the next list
  set m₃ := metadata.set .is_free (metadata.set .size s₂.mem f.addr (res.size * 2))
    f.addr 1 with hm₃
  have hfl₃ := (hfl₂.resize (i + 1) hword).setFree
  have hrepr₃ := hrepr₂.of_apart hfl₂.apart hfl₂.notMem (m := m₃) fun x hx =>
    (Layout.set_apply_out hx).trans (Layout.set_apply_out hx)
  obtain ⟨s₄, heq₄, hrepr₄, hframe₄⟩ := hrepr₃.addMD hfl₃
  have hframe₃ : Frame P.addrs s₂ (s₂.setMem m₃) :=
    Frame.trans (.set_field hfmem) (.set_field hfmem)
  have hsub : Insert.insert f.addr
      ((P.remove (.order i) res.addr).remove (.order i) neigh.addr).addrs ⊆ P.addrs :=
    Set.insert_subset hfmem (Lists.addrs_remove_subset.trans Lists.addrs_remove_subset)
  have hsize₄ : MD.size s₄.mem f.addr = res.size * 2 :=
    (hrepr₄.node _ _ (Lists.self_mem_insert _ _ _)).size
  have hsize₂ : MD.size s₂.mem f.addr = res.size := hfl₂.node.size.trans hfsize
  have hpick : (if MD.address s₂.mem neigh.addr < MD.address s₂.mem res.addr then neigh.addr
      else res.addr) = f.addr := by
    rw [haddrr, haddrn, hfaddr, Blk.payload, Blk.payload]
    split_ifs with hcmp
    · rw [min_eq_right (by omega)]
    · rw [min_eq_left (by omega)]
  have hcond : (MD.isFree s.mem neigh.addr && decide (MD.size s.mem res.addr < size128K)) =
      true := by
    rw [(h.node _ _ hneigh).isFree, (h.node _ _ hres).size, hfree, decide_eq_true hlt]
    rfl
  have hindex : findSizeIndexInList (MD.size s.mem res.addr) = some i := by
    rw [(h.node _ _ hres).size, hsize]
    exact findSizeIndexInList_sizeAt hi
  have hjoin : s₄.Repr (P.join i res neigh) := by
    rw [Lists.join, Blk.merged, ← hfaddr]
    exact hrepr₄
  refine ⟨s₄, hjoin, (hframe.trans hframe₃).trans (hframe₄.mono hsub), ?_⟩
  rw [Heap.mergeLoop, if_pos hcond, hindex, Blk.merged, ← hfaddr]
  simp only [Option.bind_eq_bind, Option.bind_some, heq₁, heq₂, hpick, hsize₂,
    Nat.mod_eq_of_lt hword]
  have hadd : (s₂.setMem m₃).addMD (.order (i + 1)) f.addr = some s₄ := heq₄
  rw [← hm₃, hadd, Option.bind_some, hsize₄, findNeighboringBlock_ChallengeOne, hsize₄]
  rfl

theorem xor_size_ne {a n : ℕ} (hn : n ≠ 0) : a ^^^ n ≠ a := by
  intro heq
  apply hn
  calc n = a ^^^ a ^^^ n := by rw [Nat.xor_self, Nat.zero_xor]
    _ = 0 := by rw [Nat.xor_assoc, heq, Nat.xor_self]

/-- **The merging loop** is `merge` on the lists. -/
theorem mergeLoop {i n fuel : ℕ} {res : Blk} {P' : Lists} (h : s.Repr P) (hsized : P.Sized)
    (hres : res ∈ P (.order i)) (hfuel : n ≤ fuel) (hmerge : Lists.merge n res P = some P') :
    ∃ s', Heap.mergeLoop fuel res.addr (res.addr ^^^ res.size) s = some s' ∧ s'.Repr P' ∧
      Frame P.addrs s s' := by
  induction n generalizing i fuel res s P with
  | zero =>
    rw [Lists.merge] at hmerge
    cases hmerge
  | succ n ih =>
    obtain ⟨fuel, rfl⟩ : ∃ f, fuel = f + 1 := ⟨fuel - 1, by omega⟩
    obtain ⟨hi, hsize⟩ := hsized i res hres
    have hpos : res.size ≠ 0 := hsize ▸ (sizeAt_pos hi).ne'
    have hindex : findSizeIndexInList res.size = some i := hsize ▸ findSizeIndexInList_sizeAt hi
    rw [Lists.merge] at hmerge
    cases hlook : P.lookup (res.addr ^^^ res.size) with
    | none => simp only [hlook, reduceCtorEq] at hmerge
    | some neigh =>
      obtain ⟨j, -, hneigh, haddr⟩ := Lists.mem_of_lookup hlook
      have hne : neigh.addr ≠ res.addr := haddr ▸ xor_size_ne hpos
      simp only [hlook, hindex] at hmerge
      rw [← haddr]
      split_ifs at hmerge with hcond hlow hlast
      · -- the last round: the block has reached 128 KiB
        obtain ⟨s', hrepr, hframe, heq⟩ :=
          h.mergeLoop_round fuel hsized hres hneigh hcond.2 hcond.1 hne hlow
        rw [if_pos hlast] at heq
        exact ⟨s', heq, Option.some.inj hmerge ▸ hrepr, hframe⟩
      · obtain ⟨s', hrepr, hframe, heq⟩ :=
          h.mergeLoop_round fuel hsized hres hneigh hcond.2 hcond.1 hne hlow
        rw [if_neg hlast] at heq
        have hi' : i < maxOrder := (sizeAt_lt_128K hi).mp (hsize ▸ hcond.2)
        have hsized' : (P.join i res neigh).Sized := by
          apply ((hsized.remove _ _).remove _ _).insert hi'
          rw [sizeAt_succ hi', ← hsize]
          rfl
        obtain ⟨s'', heq'', hrepr'', hframe''⟩ :=
          ih hrepr hsized' (Lists.self_mem_insert _ _ _) (Nat.le_of_succ_le_succ hfuel) hmerge
        exact ⟨s'', heq.trans heq'', hrepr'',
          hframe.trans (hframe''.mono (Lists.addrs_join_subset hres hneigh))⟩
      · refine ⟨s, ?_, Option.some.inj hmerge ▸ h, .refl⟩
        have hcond' : ¬ (MD.isFree s.mem neigh.addr &&
            decide (MD.size s.mem res.addr < size128K)) = true := by
          rw [(h.node _ _ hneigh).isFree, (h.node _ _ hres).size, Bool.and_eq_true,
            decide_eq_true_iff]
          exact hcond
        rw [Heap.mergeLoop, if_neg hcond']

end Heap.Repr

end OsHomework.Malloc3
