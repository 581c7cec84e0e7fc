import OsHomework.Malloc3.MDList
import Mathlib.Data.List.Find

/-!
# The lists of `malloc_3`

The state of the allocator, read as the blocks in its twelve lists: `Lists` gives for each of
`mdListArr[0..10]` and `mappedList` the addresses, sizes and flags of its headers in order.
`Heap.Repr s P` says that the heap `s` holds exactly the lists `P`, no header being in two of them.
Each header operation of the source is then a list operation: `addMD` inserts (`Lists.insert`),
`delMD` removes (`Lists.remove`) and leaves the header floating, which is what the next `addMD` asks
for, and writing a flag marks the block (`Lists.mark`).
-/

namespace OsHomework.Malloc3

/-- A block: the address of its header, its size with the header, and its flag. -/
structure Blk where
  addr : ℕ
  size : ℕ
  isFree : Bool
  deriving DecidableEq

namespace Blk

/-- Where the payload starts: the pointer the client is given. -/
def payload (b : Blk) : ℕ := b.addr + metadataSize

theorem payload_ne_zero (b : Blk) : b.payload ≠ 0 := Nat.succ_ne_zero _

/-- From the payload back to the header. -/
@[simp] theorem payload_sub (b : Blk) : b.payload - metadataSize = b.addr := Nat.add_sub_cancel _ _

/-- The test of `findFreeSizedBlock`. -/
def fitsRequest (requestedSize : ℕ) (b : Blk) : Bool := b.isFree && decide (requestedSize ≤ b.size)

end Blk

/-- The blocks in each list, in list order. -/
abbrev Lists := Slot → List Blk

namespace Lists

/-- The addresses of all headers. -/
def addrs (P : Lists) : Set ℕ := {a | ∃ i, ∃ b ∈ P i, b.addr = a}

/-- A block inserted in a list, in order of addresses. -/
def insert (P : Lists) (i : Slot) (b : Blk) : Lists :=
  Function.update P i ((P i).orderedInsert (fun x y => x.addr < y.addr) b)

/-- The block at `a` removed from a list. -/
def remove (P : Lists) (i : Slot) (a : ℕ) : Lists :=
  Function.update P i ((P i).filter fun b => b.addr ≠ a)

/-- The flag of the block at `a` set. -/
def mark (P : Lists) (i : Slot) (a : ℕ) (v : Bool) : Lists :=
  Function.update P i ((P i).map fun b => if b.addr = a then { b with isFree := v } else b)

variable {P : Lists} {i j : Slot} {a : ℕ} {b c : Blk} {v : Bool}

theorem addr_mem (hb : b ∈ P i) : b.addr ∈ P.addrs := ⟨i, b, hb, rfl⟩

theorem mem_insert : c ∈ P.insert i b j ↔ (j = i ∧ c = b) ∨ c ∈ P j := by
  by_cases hj : j = i
  · rw [hj, insert, Function.update_self, List.mem_orderedInsert]
    simp
  · rw [insert, Function.update_of_ne hj]
    simp [hj]

theorem self_mem_insert (P : Lists) (i : Slot) (b : Blk) : b ∈ P.insert i b i :=
  mem_insert.mpr (Or.inl ⟨rfl, rfl⟩)

theorem mem_remove : c ∈ P.remove i a j ↔ c ∈ P j ∧ (j = i → c.addr ≠ a) := by
  by_cases hj : j = i
  · rw [hj, remove, Function.update_self, List.mem_filter, decide_eq_true_iff]
    simp
  · rw [remove, Function.update_of_ne hj]
    simp [hj]

theorem mem_mark : c ∈ P.mark i a v j ↔
    ∃ d ∈ P j, c = if j = i ∧ d.addr = a then { d with isFree := v } else d := by
  by_cases hj : j = i
  · rw [hj, mark, Function.update_self, List.mem_map]
    simp [eq_comm]
  · rw [mark, Function.update_of_ne hj]
    simp [hj]

theorem addrs_insert : (P.insert i b).addrs = Insert.insert b.addr P.addrs := by
  ext a
  refine ⟨?_, ?_⟩
  · rintro ⟨j, c, hc, rfl⟩
    obtain ⟨-, rfl⟩ | hc := mem_insert.mp hc
    · exact Or.inl rfl
    · exact Or.inr (addr_mem hc)
  · rintro (rfl | ⟨j, c, hc, rfl⟩)
    · exact ⟨i, b, mem_insert.mpr (Or.inl ⟨rfl, rfl⟩), rfl⟩
    · exact ⟨j, c, mem_insert.mpr (Or.inr hc), rfl⟩

theorem addrs_remove_subset : (P.remove i a).addrs ⊆ P.addrs := by
  rintro _ ⟨j, c, hc, rfl⟩
  exact addr_mem (mem_remove.mp hc).1

/-- Setting a flag keeps every address in its place. -/
theorem map_addr_mark : (P.mark i a v j).map Blk.addr = (P j).map Blk.addr := by
  by_cases hj : j = i
  · rw [hj, mark, Function.update_self, List.map_map]
    apply List.map_congr_left
    intro b _
    show Blk.addr (if b.addr = a then _ else b) = b.addr
    split_ifs <;> rfl
  · rw [mark, Function.update_of_ne hj]

/-- A block that is removed may as well have been marked before. -/
theorem remove_mark : (P.mark i a v).remove i a = P.remove i a := by
  have hlist : (P.mark i a v i).filter (fun b => b.addr ≠ a) =
      (P i).filter fun b => b.addr ≠ a := by
    rw [mark, Function.update_self, List.filter_map]
    -- a flag does not change an address
    have hkeep : (P i).filter ((fun b : Blk => decide (b.addr ≠ a)) ∘
        fun b => if b.addr = a then { b with isFree := v } else b)
          = (P i).filter fun b => b.addr ≠ a := by
      apply List.filter_congr
      intro b _
      show decide (Blk.addr (if b.addr = a then _ else b) ≠ a) = _
      split_ifs <;> rfl
    rw [hkeep]
    refine (List.map_congr_left fun b hb => if_neg ?_).trans (List.map_id' _)
    simpa using (List.mem_filter.mp hb).2
  rw [remove, hlist, mark, Function.update_idem]
  rfl

/-- Removing what is not there. -/
theorem remove_of_notMem (h : ∀ b ∈ P i, b.addr ≠ a) : P.remove i a = P := by
  have hlist : (P i).filter (fun b => b.addr ≠ a) = P i :=
    List.filter_eq_self.mpr fun b hb => decide_eq_true (h b hb)
  rw [remove, hlist, Function.update_eq_self]

/-- Among blocks at different addresses, removing by address is removing one block. -/
theorem filter_addr_ne {L : List Blk} (hL : (L.map Blk.addr).Nodup) (hb : b ∈ L) :
    L.filter (fun c => c.addr ≠ b.addr) = L.erase b := by
  rw [(hL.of_map _).erase_eq_filter]
  apply List.filter_congr
  intro c hc
  by_cases hcb : c = b
  · simp [hcb]
  · have hne : c.addr ≠ b.addr := fun heq => hcb (List.inj_on_of_nodup_map hL hc hb heq)
    simp [hcb, hne]

/-- Setting a flag to what it is. -/
theorem mark_eq_self (h : ∀ b ∈ P i, b.addr = a → b.isFree = v) : P.mark i a v = P := by
  have hlist : ((P i).map fun b => if b.addr = a then { b with isFree := v } else b) = P i := by
    refine (List.map_congr_left fun b hb => ?_).trans (List.map_id' _)
    split_ifs with hba
    · rw [← h b hb hba]
    · rfl
  rw [mark, hlist, Function.update_eq_self]

theorem addrs_mark : (P.mark i a v).addrs = P.addrs := by
  have hmem : ∀ Q : Lists, ∀ x, x ∈ Q.addrs ↔ ∃ j, x ∈ (Q j).map Blk.addr := by
    intro Q x
    exact exists_congr fun j => List.mem_map.symm
  ext x
  rw [hmem, hmem]
  exact exists_congr fun j => by rw [map_addr_mark]

end Lists

/-- The header of `b` is in the memory `m`, as a header of the list `i`. -/
structure IsNode (m : Mem) (i : Slot) (b : Blk) : Prop where
  size : MD.size m b.addr = b.size
  isFree : MD.isFree m b.addr = b.isFree
  isMmap : MD.isMmap m b.addr = decide (i = .mapped)

/-- Links are not part of what a node says. -/
theorem IsNode.of_linkWrites {H : Set ℕ} {S : List ℕ} {m m' : Mem} {i : Slot} {b : Blk}
    (h : IsNode m i b) (hw : LinkWrites H S m m') (hb : b.addr ∈ H) : IsNode m' i b := by
  have hget := fun f hn hp => hw.field f hn hp b.addr hb
  refine ⟨(hget .size Field.noConfusion Field.noConfusion).trans h.size, ?_, ?_⟩
  · rw [← h.isFree, MD.isFree, MD.isFree, hget .is_free Field.noConfusion Field.noConfusion]
  · rw [← h.isMmap, MD.isMmap, MD.isMmap, hget .is_mmap Field.noConfusion Field.noConfusion]

/-- The heap holds the lists `P`. -/
structure Heap.Repr (s : Heap) (P : Lists) : Prop where
  apart : Apart P.addrs
  list : ∀ i, IsList P.addrs s.mem (s.list i) ((P i).map Blk.addr)
  node : ∀ i, ∀ b ∈ P i, IsNode s.mem i b
  once : ∀ i j, ∀ b ∈ P i, ∀ c ∈ P j, b.addr = c.addr → i = j

/-- The header of `b` is in memory and in no list, ready to be put in the list `i`. -/
structure Floating (m : Mem) (P : Lists) (i : Slot) (b : Blk) : Prop where
  apart : Apart (Insert.insert b.addr P.addrs)
  notMem : b.addr ∉ P.addrs
  node : IsNode m i b
  next : MD.next m b.addr = 0
  address : MD.address m b.addr = b.payload

/-- What header operations on the addresses `H` leave alone. -/
structure Frame (H : Set ℕ) (s s' : Heap) : Prop where
  firstMalloc : s'.firstMalloc = s.firstMalloc
  regions : s'.regions = s.regions
  bytes : ∀ x, (∀ a ∈ H, x < a ∨ a + metadataSize ≤ x) → s'.mem x = s.mem x

namespace Frame

variable {H H' : Set ℕ} {s s' s'' : Heap} {p : ℕ}

theorem refl : Frame H s s := ⟨rfl, rfl, fun _ _ => rfl⟩

theorem trans (h : Frame H s s') (h' : Frame H s' s'') : Frame H s s'' where
  firstMalloc := h'.firstMalloc.trans h.firstMalloc
  regions := h'.regions.trans h.regions
  bytes x hx := (h'.bytes x hx).trans (h.bytes x hx)

theorem mono (h : Frame H s s') (hsub : H ⊆ H') : Frame H' s s' where
  firstMalloc := h.firstMalloc
  regions := h.regions
  bytes x hx := h.bytes x fun a ha => hx a (hsub ha)

theorem set_field {f : Field} {v : ℕ} (hp : p ∈ H) :
    Frame H s (s.setMem (metadata.set f s.mem p v)) :=
  ⟨rfl, rfl, fun _ hx => Layout.set_apply_out (hx p hp)⟩

/-- A header apart from those handled keeps all its fields. -/
theorem get_eq (h : Frame H s s') (hp : ∀ a ∈ H, a + metadataSize ≤ p ∨ p + metadataSize ≤ a)
    (f : Field) : metadata.get f s'.mem p = metadata.get f s.mem p := by
  refine Layout.get_congr fun x hx => h.bytes x fun a ha => ?_
  have h1 := hx.1
  have h2 : x < p + metadataSize := hx.2
  have := hp a ha
  omega

end Frame

namespace Heap

variable {s s' : Heap} {P : Lists} {i j : Slot} {a : ℕ} {b c : Blk} {v : Bool}

@[simp] theorem list_setList_self (l : MDList) : (s.setList l i).list i = l := by
  cases i with
  | order k => exact Function.update_self ..
  | mapped => rfl

theorem list_setList_of_ne (l : MDList) (hij : j ≠ i) : (s.setList l i).list j = s.list j := by
  cases i with
  | order k =>
    cases j with
    | order k' => exact Function.update_of_ne (fun heq => hij (congrArg Slot.order heq)) _ _
    | mapped => rfl
  | mapped =>
    cases j with
    | order k' => rfl
    | mapped => exact absurd rfl hij

@[simp] theorem setList_list : s.setList (s.list i) i = s := by
  cases i with
  | order k =>
    show ({ s with mdListArr := Function.update s.mdListArr k (s.mdListArr k) } : Heap) = s
    rw [Function.update_eq_self]
  | mapped => rfl

@[simp] theorem firstMalloc_setList (l : MDList) : (s.setList l i).firstMalloc = s.firstMalloc := by
  cases i <;> rfl

@[simp] theorem regions_setList (l : MDList) : (s.setList l i).regions = s.regions := by
  cases i <;> rfl

/-- The traversal of a list, collecting what the headers say. -/
def blocks (s : Heap) (i : Slot) : Option (List Blk) :=
  foldNodes (MD.next s.mem) (fun acc p => acc ++ [⟨p, MD.size s.mem p, MD.isFree s.mem p⟩])
    wordLimit [] (s.list i).head

namespace Repr

/-- A traversal terminates and reads the blocks. -/
theorem blocks_eq (h : s.Repr P) (i : Slot) : s.blocks i = some (P i) := by
  -- the headers say what the blocks are
  have hread : ∀ b ∈ P i,
      (⟨b.addr, MD.size s.mem b.addr, MD.isFree s.mem b.addr⟩ : Blk) = id b := by
    intro b hb
    rw [(h.node i b hb).size, (h.node i b hb).isFree]
    rfl
  have hlen := (h.list i).length_lt h.apart
  rw [List.length_map] at hlen
  rw [blocks, foldNodes_collect (h.list i).chain hlen hread, List.map_id]

/-- The lists are determined by the heap. -/
theorem unique {P' : Lists} (h : s.Repr P) (h' : s.Repr P') : P = P' := by
  funext i
  exact Option.some.inj ((h.blocks_eq i).symm.trans (h'.blocks_eq i))

theorem mem_addrs (h : s.Repr P) (i : Slot) : ∀ a ∈ (P i).map Blk.addr, a ∈ P.addrs :=
  (h.list i).mem

/-- Two blocks at one address are the same block. -/
theorem eq_of_addr (h : s.Repr P) (hb : b ∈ P i) (hc : c ∈ P j) (heq : b.addr = c.addr) :
    i = j ∧ b = c := by
  -- they are in one list, where the addresses are distinct
  obtain rfl := h.once i j b hb c hc heq
  exact ⟨rfl, List.inj_on_of_nodup_map (h.list i).nodup hb hc heq⟩

/-- Only the headers and the list heads matter. -/
theorem congr (h : s.Repr P) (hlist : ∀ i, s'.list i = s.list i)
    (hget : ∀ a ∈ P.addrs, ∀ f, metadata.get f s'.mem a = metadata.get f s.mem a) :
    s'.Repr P where
  apart := h.apart
  list i := by
    rw [hlist i]
    exact (h.list i).congr (fun a ha => hget a (h.mem_addrs i a ha) .next)
      fun a ha => hget a (h.mem_addrs i a ha) .address
  node i b hb := by
    have hb' := Lists.addr_mem hb
    obtain ⟨h1, h2, h3⟩ := h.node i b hb
    refine ⟨(hget _ hb' .size).trans h1, ?_, ?_⟩
    · rw [← h2, MD.isFree, MD.isFree, hget _ hb' .is_free]
    · rw [← h3, MD.isMmap, MD.isMmap, hget _ hb' .is_mmap]
  once := h.once

/-! ### Inserting and removing -/

/-- Writing links of the list `i` and of a header outside all lists, as the other lists see it. -/
theorem list_of_linkWrites {H : Set ℕ} {S : List ℕ} {m' : Mem} {l' : MDList} (h : s.Repr P)
    (hH : Apart H) (hsub : P.addrs ⊆ H) (hw : LinkWrites H S s.mem m') (hS : ∀ a ∈ S, a ∈ H)
    (hj : j ≠ i) (hjS : ∀ a ∈ (P j).map Blk.addr, a ∉ S) :
    IsList H m' (((s.setList l' i).setMem m').list j) ((P j).map Blk.addr) := by
  have hlist : ((s.setList l' i).setMem m').list j = s.list j := list_setList_of_ne l' hj
  rw [hlist]
  have hmem : ∀ a ∈ (P j).map Blk.addr, a ∈ H := fun a ha => hsub (h.mem_addrs j a ha)
  exact ((h.list j).mono hmem).congr
    (fun a ha => hw.get_eq hH hS (hmem a ha) (hjS a ha) .next)
    fun a ha => hw.get_eq hH hS (hmem a ha) (hjS a ha) .address

/-- **`addMD`** of a floating header. -/
theorem addMD (h : s.Repr P) (hb : Floating s.mem P i b) :
    ∃ s', s.addMD i b.addr = some s' ∧ s'.Repr (P.insert i b) ∧
      Frame (Insert.insert b.addr P.addrs) s s' := by
  set H : Set ℕ := Insert.insert b.addr P.addrs with hHdef
  have hsub : P.addrs ⊆ H := Set.subset_insert _ _
  have hbH : b.addr ∈ H := Set.mem_insert _ _
  have hmem : ∀ a ∈ (P i).map Blk.addr, a ∈ H := fun a ha => hsub (h.mem_addrs i a ha)
  have hins : Insertable H s.mem ((P i).map Blk.addr) b.addr :=
    ⟨hbH, fun hmem => hb.notMem (h.mem_addrs i _ hmem), hb.next, hb.address⟩
  -- the insertion into the one list; it writes links only
  obtain ⟨m', l', heq, hlist, hw⟩ := ((h.list i).mono hmem).addMD hb.apart hins
  have hS : ∀ a ∈ b.addr :: (P i).map Blk.addr, a ∈ H := by
    intro a ha
    obtain rfl | ha := List.mem_cons.mp ha
    · exact hbH
    · exact hmem a ha
  refine ⟨(s.setList l' i).setMem m', by rw [Heap.addMD, heq]; rfl, ⟨?_, fun j => ?_, ?_, ?_⟩, ?_⟩
  · rw [Lists.addrs_insert]
    exact hb.apart
  · rw [Lists.addrs_insert]
    -- the other lists share no header with this one, so they stay
    by_cases hj : j = i
    · obtain rfl := hj
      have hmap : (P.insert j b j).map Blk.addr
          = ((P j).map Blk.addr).orderedInsert (· < ·) b.addr := by
        rw [Lists.insert, Function.update_self]
        exact List.map_orderedInsert _ _ Blk.addr _ _ (fun _ _ => Iff.rfl) fun _ _ => Iff.rfl
      rw [hmap]
      have hself : ((s.setList l' j).setMem m').list j = l' := list_setList_self l'
      rwa [hself]
    · have hother : P.insert i b j = P j := Function.update_of_ne hj _ _
      rw [hother]
      apply h.list_of_linkWrites hb.apart hsub hw hS hj
      intro a ha hmem
      obtain ⟨c, hc, rfl⟩ := List.mem_map.mp ha
      obtain hcb | hci := List.mem_cons.mp hmem
      · exact hb.notMem (hcb ▸ Lists.addr_mem hc)
      · obtain ⟨d, hd, hdc⟩ := List.mem_map.mp hci
        exact hj (h.once j i c hc d hd hdc.symm)
  · intro j c hc
    obtain ⟨rfl, rfl⟩ | hc := Lists.mem_insert.mp hc
    · exact hb.node.of_linkWrites hw hbH
    · exact (h.node j c hc).of_linkWrites hw (hsub (Lists.addr_mem hc))
  · -- the new header has an address of its own
    intro j k c hc d hd hcd
    obtain ⟨rfl, rfl⟩ | hc' := Lists.mem_insert.mp hc
    · obtain ⟨rfl, -⟩ | hd' := Lists.mem_insert.mp hd
      · rfl
      · exact absurd (hcd ▸ Lists.addr_mem hd') hb.notMem
    · obtain ⟨rfl, rfl⟩ | hd' := Lists.mem_insert.mp hd
      · exact absurd (hcd ▸ Lists.addr_mem hc') hb.notMem
      · exact h.once j k c hc' d hd' hcd
  · refine ⟨firstMalloc_setList l', regions_setList l', fun x hx => hw.bytes x fun a ha => ?_⟩
    exact hx a (hS a ha)

/-- **`delMD`** of a block of the list: its header is left floating. -/
theorem delMD (h : s.Repr P) (hb : b ∈ P i) :
    ∃ s', s.delMD i b.addr = some s' ∧ s'.Repr (P.remove i b.addr) ∧
      Floating s'.mem (P.remove i b.addr) i b ∧ Frame P.addrs s s' := by
  have hbmem : b.addr ∈ (P i).map Blk.addr := List.mem_map_of_mem hb
  have hbH : b.addr ∈ P.addrs := Lists.addr_mem hb
  -- the removal from the one list; it writes links only
  obtain ⟨m', l', heq, hlist, hw, hnext⟩ := (h.list i).delMD h.apart hbmem
  have hsub : (P.remove i b.addr).addrs ⊆ P.addrs := Lists.addrs_remove_subset
  -- a block is in one list only
  have hnotMem : b.addr ∉ (P.remove i b.addr).addrs := by
    rintro ⟨j, c, hc, hcb⟩
    obtain ⟨hc, hne⟩ := Lists.mem_remove.mp hc
    exact hne (h.once j i c hc b hb hcb) hcb
  have hmap : (P.remove i b.addr i).map Blk.addr = ((P i).map Blk.addr).erase b.addr := by
    have hkeep : (P i).filter (fun c => decide (c.addr ≠ b.addr))
        = (P i).filter ((fun a => a != b.addr) ∘ Blk.addr) := by
      apply List.filter_congr
      intro c _
      by_cases hcb : c.addr = b.addr <;> simp [hcb]
    rw [Lists.remove, Function.update_self, (h.list i).nodup.erase_eq_filter, List.filter_map,
      hkeep]
  refine ⟨(s.setList l' i).setMem m', by rw [Heap.delMD, heq]; rfl,
    ⟨h.apart.mono hsub, fun j => ?_, ?_, ?_⟩, ⟨?_, hnotMem, ?_, hnext, ?_⟩, ?_⟩
  · by_cases hj : j = i
    · obtain rfl := hj
      have hself : ((s.setList l' j).setMem m').list j = l' := list_setList_self l'
      rw [hself, hmap]
      apply hlist.mono
      intro a ha
      rw [← hmap] at ha
      obtain ⟨c, hc, rfl⟩ := List.mem_map.mp ha
      exact Lists.addr_mem hc
    · have hother : P.remove i b.addr j = P j := Function.update_of_ne hj _ _
      rw [hother]
      refine (h.list_of_linkWrites h.apart subset_rfl hw (h.mem_addrs i) hj
        fun a ha hmem => ?_).mono
        fun a ha => ?_
      · obtain ⟨c, hc, rfl⟩ := List.mem_map.mp ha
        obtain ⟨d, hd, hdc⟩ := List.mem_map.mp hmem
        exact hj (h.once j i c hc d hd hdc.symm)
      · obtain ⟨c, hc, rfl⟩ := List.mem_map.mp ha
        exact ⟨j, c, hother.symm ▸ hc, rfl⟩
  · intro j c hc
    obtain ⟨hc, -⟩ := Lists.mem_remove.mp hc
    exact (h.node j c hc).of_linkWrites hw (Lists.addr_mem hc)
  · intro j k c hc d hd hcd
    exact h.once j k c (Lists.mem_remove.mp hc).1 d (Lists.mem_remove.mp hd).1 hcd
  · exact h.apart.mono (Set.insert_subset hbH hsub)
  · exact (h.node i b hb).of_linkWrites hw hbH
  · rw [Blk.payload, ← (h.list i).address _ hbmem]
    exact hw.field .address Field.noConfusion Field.noConfusion _ hbH
  · exact ⟨firstMalloc_setList l', regions_setList l', fun x hx =>
      hw.bytes x fun a ha => hx a (h.mem_addrs i a ha)⟩

/-- `delMD` changes nothing if no block of the list has the `address`. -/
theorem delMD_of_address (h : s.Repr P) (ha : ∀ c ∈ P i, c.payload ≠ MD.address s.mem a) :
    s.delMD i a = some s := by
  -- the loop looks at the `address` fields, which are those of the payloads
  have hmd : ∀ x ∈ (P i).map Blk.addr, MD.address s.mem a ≠ x + metadataSize := by
    intro x hx
    obtain ⟨c, hc, rfl⟩ := List.mem_map.mp hx
    exact (ha c hc).symm
  rw [Heap.delMD, (h.list i).delMD_of_address h.apart hmd]
  show some ((s.setList (s.list i) i).setMem s.mem) = some s
  rw [setList_list]
  rfl

/-- `delMD` of a header that is not in the list changes nothing. -/
theorem delMD_of_notMem (h : s.Repr P) (ha : ∀ c ∈ P i, c.addr ≠ a)
    (haddr : MD.address s.mem a = a + metadataSize) : s.delMD i a = some s := by
  refine h.delMD_of_address fun c hc heq => ha c hc ?_
  rw [haddr] at heq
  exact Nat.add_right_cancel heq

/-! ### Flags and searches -/

/-- Writing the flag of a block. -/
theorem mark (h : s.Repr P) (hb : b ∈ P i) (v : Bool) :
    (s.setMem (metadata.set .is_free s.mem b.addr v.toNat)).Repr (P.mark i b.addr v) := by
  have hbH := Lists.addr_mem hb
  -- all other fields stay as they are
  have hother : ∀ f, f ≠ Field.is_free → ∀ a ∈ P.addrs,
      metadata.get f (metadata.set .is_free s.mem b.addr v.toNat) a = metadata.get f s.mem a :=
    fun f hf a ha => h.apart.get_set_other hbH ha hf.symm
  refine ⟨?_, fun j => ?_, fun j c hc => ?_, fun j k c hc d hd hcd => ?_⟩
  · rw [Lists.addrs_mark]
    exact h.apart
  · rw [Lists.addrs_mark, Lists.map_addr_mark]
    exact (h.list j).congr (fun a ha => hother .next Field.noConfusion a (h.mem_addrs j a ha))
      fun a ha => hother .address Field.noConfusion a (h.mem_addrs j a ha)
  · obtain ⟨d, hd, rfl⟩ := Lists.mem_mark.mp hc
    have hdH := Lists.addr_mem hd
    obtain ⟨h1, h2, h3⟩ := h.node j d hd
    have h1' := (hother .size Field.noConfusion _ hdH).trans h1
    have h3' : MD.isMmap (metadata.set .is_free s.mem b.addr v.toNat) d.addr
        = decide (j = .mapped) := by
      rw [← h3, MD.isMmap, MD.isMmap, hother .is_mmap Field.noConfusion _ hdH]
    split_ifs with hdb
    · refine ⟨h1', ?_, h3'⟩
      show MD.isFree (metadata.set .is_free s.mem b.addr v.toNat) d.addr = v
      rw [hdb.2, MD.isFree, Layout.get_set_same (show v.toNat < 256 ^ 1 by cases v <;> decide)]
      cases v <;> rfl
    · refine ⟨h1', ?_, h3'⟩
      -- a block elsewhere is apart from the one that is written
      have hne : b.addr ≠ d.addr := fun heq =>
        hdb ⟨(h.once i j b hb d hd heq).symm, heq.symm⟩
      show MD.isFree (metadata.set .is_free s.mem b.addr v.toNat) d.addr = d.isFree
      rw [← h2, MD.isFree, MD.isFree,
        Layout.get_set_of_apart ((h.apart.sep _ hbH _ hdH).resolve_left hne)]
  · obtain ⟨c', hc', rfl⟩ := Lists.mem_mark.mp hc
    obtain ⟨d', hd', rfl⟩ := Lists.mem_mark.mp hd
    apply h.once j k c' hc' d' hd'
    split_ifs at hcd <;> exact hcd

/-- `findFreeSizedBlock` takes the first block that fits. -/
theorem findFreeSizedBlock (h : s.Repr P) (i : Slot) (n : ℕ) :
    (s.list i).findFreeSizedBlock s.mem n = some (((P i).find? (Blk.fitsRequest n)).elim (0, s.mem)
      fun b => (b.payload, metadata.set .is_free s.mem b.addr 0)) := by
  -- on a header of the list the test of the loop is the one on blocks
  have htest :
      (P i).find? (MD.fitsRequest s.mem n ∘ Blk.addr) = (P i).find? (Blk.fitsRequest n) := by
    apply List.find?_congr
    intro b hb
    rw [Function.comp_apply, MD.fitsRequest, (h.node i b hb).size, (h.node i b hb).isFree,
      Blk.fitsRequest]
  rw [(h.list i).ordered.findFreeSizedBlock h.apart, List.find?_map, htest]
  cases hfind : (P i).find? (Blk.fitsRequest n) with
  | none => rfl
  | some b =>
    -- the address that is returned is the one of the payload
    have hb : b ∈ P i := List.mem_of_find?_eq_some hfind
    rw [Option.map_some, Option.elim_some, Option.elim_some,
      (h.list i).address b.addr (List.mem_map_of_mem hb), Blk.payload]

end Repr

end Heap

/-! ### Floating headers -/

section Floating

variable {s s' : Heap} {P Q : Lists} {H : Set ℕ} {i j : Slot} {m : Mem} {a n : ℕ} {b c : Blk}

/-- A header outside all lists may be overwritten. -/
theorem Heap.Repr.of_apart (h : s.Repr P) (hap : Apart (Insert.insert a P.addrs))
    (ha : a ∉ P.addrs) (hm : ∀ x, x < a ∨ a + metadataSize ≤ x → m x = s.mem x) :
    (s.setMem m).Repr P := by
  refine h.congr (fun _ => rfl) fun q hq f => Layout.get_congr fun x hx => hm x ?_
  have h1 := hx.1
  have h2 : x < q + metadataSize := hx.2
  have := (hap.sep a (Set.mem_insert _ _) q (Set.mem_insert_of_mem _ hq)).resolve_left
    fun heq => ha (heq ▸ hq)
  omega

theorem metaDataInit_apply_out {size nxt prv adrs x : ℕ} {fr : Bool}
    (hx : x < a ∨ a + metadataSize ≤ x) : metaDataInit m a size fr nxt prv adrs x = m x := by
  rw [metaDataInit]
  split_ifs
  · rfl
  · exact (Layout.set_apply_out hx).trans <| (Layout.set_apply_out hx).trans <|
      (Layout.set_apply_out hx).trans <| (Layout.set_apply_out hx).trans <|
      (Layout.set_apply_out hx).trans (Layout.set_apply_out hx)

theorem Frame.metaDataInit {size nxt prv adrs : ℕ} {fr : Bool} (ha : a ∈ H) :
    Frame H s (s.setMem (metaDataInit s.mem a size fr nxt prv adrs)) :=
  ⟨rfl, rfl, fun _ hx => metaDataInit_apply_out (hx a ha)⟩

/-- What `metaDataInit` writes. -/
theorem metaDataInit_get (m : Mem) (fr : Bool) {size adrs : ℕ} (ha : a ≠ 0)
    (hsize : size < wordLimit) (hadrs : adrs < wordLimit) :
    MD.size (metaDataInit m a size fr 0 0 adrs) a = size ∧
      MD.isFree (metaDataInit m a size fr 0 0 adrs) a = fr ∧
      MD.next (metaDataInit m a size fr 0 0 adrs) a = 0 ∧
      MD.address (metaDataInit m a size fr 0 0 adrs) a = adrs ∧
      MD.isMmap (metaDataInit m a size fr 0 0 adrs) a = false := by
  -- each field is read behind the later writes to other fields
  have hfr : fr.toNat < 256 ^ 1 := by cases fr <;> decide
  have hne : ∀ {f g : Field} {m : Mem} {v : ℕ}, g ≠ f →
      metadata.get f (metadata.set g m a v) a = metadata.get f m a := Layout.get_set_of_ne
  simp only [metaDataInit, if_neg ha, MD.size, MD.isFree, MD.next, MD.address, MD.isMmap]
  refine ⟨?_, ?_, ?_, ?_, ?_⟩
  · rw [hne (by decide), hne (by decide), hne (by decide), hne (by decide), hne (by decide)]
    exact Layout.get_set_same hsize
  · rw [hne (by decide), hne (by decide), hne (by decide), hne (by decide),
      Layout.get_set_same hfr]
    cases fr <;> rfl
  · rw [hne (by decide), hne (by decide), hne (by decide)]
    exact Layout.get_set_same (by decide)
  · rw [hne (by decide)]
    exact Layout.get_set_same hadrs
  · rw [Layout.get_set_same (by decide)]
    rfl

/-- `metaDataInit` of a place outside all lists makes a floating header of a pool block. -/
theorem Floating.metaDataInit (k : ℕ) {size : ℕ} {fr : Bool}
    (hap : Apart (Insert.insert a P.addrs)) (ha : a ∉ P.addrs) (hsize : size < wordLimit) :
    Floating (metaDataInit m a size fr 0 0 (a + metadataSize)) P (.order k) ⟨a, size, fr⟩ := by
  have haH : a ∈ Insert.insert a P.addrs := Set.mem_insert _ _
  obtain ⟨h1, h2, h3, h4, h5⟩ :=
    metaDataInit_get m fr (hap.pos a haH) hsize (hap.lt a haH)
  exact ⟨hap, ha, ⟨h1, h2, h5⟩, h3, h4⟩

/-- The header keeps floating while others are handled. -/
theorem Floating.frame (h : Floating s.mem P i b) (hf : Frame H s s')
    (hH : ∀ a ∈ H, a + metadataSize ≤ b.addr ∨ b.addr + metadataSize ≤ a)
    (hap : Apart (Insert.insert b.addr Q.addrs)) (hb : b.addr ∉ Q.addrs) :
    Floating s'.mem Q i b := by
  have hget : ∀ f, metadata.get f s'.mem b.addr = metadata.get f s.mem b.addr := hf.get_eq hH
  refine ⟨hap, hb, ⟨(hget .size).trans h.node.size, ?_, ?_⟩, (hget .next).trans h.next,
    (hget .address).trans h.address⟩
  · rw [← h.node.isFree, MD.isFree, MD.isFree, hget .is_free]
  · rw [← h.node.isMmap, MD.isMmap, MD.isMmap, hget .is_mmap]

/-- A floating header with another size, for another list of the pool. -/
theorem Floating.resize {k : ℕ} (h : Floating m P (.order k) b) (j : ℕ) (hn : n < wordLimit) :
    Floating (metadata.set .size m b.addr n) P (.order j) ⟨b.addr, n, b.isFree⟩ := by
  have hne : ∀ {f : Field}, f ≠ .size →
      metadata.get f (metadata.set .size m b.addr n) b.addr = metadata.get f m b.addr :=
    fun hf => Layout.get_set_of_ne hf.symm
  refine ⟨h.apart, h.notMem, ⟨Layout.get_set_same hn, ?_, ?_⟩, ?_, ?_⟩
  · rw [← h.node.isFree, MD.isFree, MD.isFree, hne Field.noConfusion]
  · have hmmap := h.node.isMmap
    rw [MD.isMmap] at hmmap ⊢
    rw [hne Field.noConfusion, hmmap]
    rfl
  · exact (hne Field.noConfusion).trans h.next
  · exact (hne Field.noConfusion).trans h.address

/-- A floating header, marked free. -/
theorem Floating.setFree (h : Floating m P i b) :
    Floating (metadata.set .is_free m b.addr 1) P i { b with isFree := true } := by
  have hne : ∀ {f : Field}, f ≠ .is_free →
      metadata.get f (metadata.set .is_free m b.addr 1) b.addr = metadata.get f m b.addr :=
    fun hf => Layout.get_set_of_ne hf.symm
  refine ⟨h.apart, h.notMem, ⟨(hne Field.noConfusion).trans h.node.size, ?_, ?_⟩, ?_, ?_⟩
  · have hset : metadata.get .is_free (metadata.set .is_free m b.addr 1) b.addr = 1 :=
      Layout.get_set_same (show 1 < 256 ^ 1 by decide)
    rw [MD.isFree, hset]
    rfl
  · rw [← h.node.isMmap, MD.isMmap, MD.isMmap, hne Field.noConfusion]
  · exact (hne Field.noConfusion).trans h.next
  · exact (hne Field.noConfusion).trans h.address

end Floating

end OsHomework.Malloc3
