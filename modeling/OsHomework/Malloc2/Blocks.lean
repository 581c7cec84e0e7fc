import OsHomework.Malloc2.Model
import Mathlib.Data.List.Pairwise
import Mathlib.Data.Set.Function

/-!
# The block list of `malloc_2`

`Heap.Repr s bs` reads the heap as a list of blocks: the chain from `globalPointersList` visits
their headers, each header holds the block's size and flag, and the blocks lie one above the other
below the program break. On such a heap each operation is a list operation: a search is
`List.find?`, reusing and freeing a block set its flag (`markFree`), growing appends one block
(`allocate_spec`). Every one of them leaves all bytes outside the headers alone.
-/

namespace OsHomework.Malloc2

/-- A block: the address of its header, the size of its payload, and its flag. -/
structure Blk where
  addr : ℕ
  size : ℕ
  isFree : Bool
  deriving DecidableEq

namespace Blk

/-- Where the payload starts: the pointer the client is given. -/
def payload (b : Blk) : ℕ := b.addr + metadataSize

/-- The end of header and payload. -/
def fin (b : Blk) : ℕ := b.addr + metadataSize + b.size

/-- The test of the search loop. -/
def fitsRequest (size : ℕ) (b : Blk) : Bool := decide (size ≤ b.size) && b.isFree

end Blk

/-- The bytes of the headers. -/
def headers (bs : List Blk) : Set ℕ :=
  {x | ∃ b ∈ bs, b.addr ≤ x ∧ x < b.payload}

/-- A byte outside the headers lies outside the record at the address of each. -/
theorem out_of_headers {bs : List Blk} {b : Blk} {x : ℕ} (hx : x ∈ (headers bs)ᶜ) (hb : b ∈ bs) :
    x < b.addr ∨ b.addr + metadata.size ≤ x := by
  by_contra hcon
  rw [not_or, not_lt, not_le] at hcon
  exact hx ⟨b, hb, hcon⟩

/-- Set the flag of the block at `a`. -/
def markFree (a : ℕ) (v : Bool) (bs : List Blk) : List Blk :=
  bs.map fun b => if b.addr = a then { b with isFree := v } else b

section MarkFree

variable {a : ℕ} {v : Bool} {bs : List Blk} {b : Blk}

theorem map_addr_markFree : (markFree a v bs).map Blk.addr = bs.map Blk.addr := by
  rw [markFree, List.map_map]
  apply List.map_congr_left
  intro b _
  show Blk.addr (if b.addr = a then _ else b) = b.addr
  split_ifs <;> rfl

/-- A block of `markFree a v bs` is one of `bs` with its flag possibly set. -/
theorem mem_markFree : b ∈ markFree a v bs ↔
    ∃ c ∈ bs, b = if c.addr = a then { c with isFree := v } else c := by
  rw [markFree, List.mem_map]
  exact exists_congr fun c => and_congr_right fun _ => eq_comm

/-- Setting a flag moves no block. -/
theorem payload_mem_markFree (hb : b ∈ bs) : ∃ d ∈ markFree a v bs, d.payload = b.payload := by
  refine ⟨_, mem_markFree.mpr ⟨b, hb, rfl⟩, ?_⟩
  split_ifs <;> rfl

theorem headers_markFree : headers (markFree a v bs) = headers bs := by
  have hshape : ∀ c : Blk,
      (if c.addr = a then ({ c with isFree := v } : Blk) else c).addr = c.addr := by
    intro c
    split_ifs <;> rfl
  ext x
  refine ⟨fun ⟨b, hb, h1, h2⟩ => ?_, fun ⟨c, hc, h1, h2⟩ => ?_⟩
  · obtain ⟨c, hc, rfl⟩ := mem_markFree.mp hb
    rw [Blk.payload, hshape] at h2
    exact ⟨c, hc, hshape c ▸ h1, h2⟩
  · refine ⟨_, mem_markFree.mpr ⟨c, hc, rfl⟩, (hshape c).symm ▸ h1, ?_⟩
    rw [Blk.payload, hshape]
    exact h2

end MarkFree

/-- The heap holds exactly the blocks `bs`, in list order. -/
structure Heap.Repr (s : Heap) (bs : List Blk) : Prop where
  chain : Chain s.next s.globalPointersList (bs.map Blk.addr)
  size_eq : ∀ b ∈ bs, s.size b.addr = b.size
  isFree_eq : ∀ b ∈ bs, s.isFree b.addr = b.isFree
  apart : bs.Pairwise fun a b => a.fin ≤ b.addr
  below : ∀ b ∈ bs, b.fin ≤ s.brk
  brk_pos : 0 < s.brk
  brk_lt : s.brk < wordLimit

namespace Heap

variable {s s' : Heap} {bs : List Blk} {b c : Blk}

/-! ### Reading the list -/

/-- The traversal of `globalPointersList`, collecting what the headers say. -/
def blocks (s : Heap) : Option (List Blk) :=
  foldNodes s.next (fun acc p => acc ++ [⟨p, s.size p, s.isFree p⟩]) wordLimit []
    s.globalPointersList

namespace Repr

theorem addr_ne_zero (h : s.Repr bs) (hb : b ∈ bs) : b.addr ≠ 0 :=
  h.chain.ne_zero _ (List.mem_map_of_mem hb)

/-- Distinct blocks do not overlap. -/
theorem disjoint (h : s.Repr bs) (hb : b ∈ bs) (hc : c ∈ bs) (hne : b ≠ c) :
    b.fin ≤ c.addr ∨ c.fin ≤ b.addr := by
  have hsymm : Std.Symm fun b c : Blk => b.fin ≤ c.addr ∨ c.fin ≤ b.addr := ⟨fun _ _ => Or.symm⟩
  have hall : bs.Pairwise fun b c => b.fin ≤ c.addr ∨ c.fin ≤ b.addr := h.apart.imp Or.inl
  exact hall.forall hb hc hne

/-- Two headers are the same or do not overlap. -/
theorem same_or_apart (h : s.Repr bs) (hb : b ∈ bs) (hc : c ∈ bs) :
    b.addr = c.addr ∨ b.addr + metadata.size ≤ c.addr ∨ c.addr + metadata.size ≤ b.addr := by
  by_cases hbc : b = c
  · exact Or.inl (congrArg Blk.addr hbc)
  · have := h.disjoint hb hc hbc
    simp only [Blk.fin, metadataSize] at this
    simp only [metadata]
    omega

theorem eq_of_addr (h : s.Repr bs) (hb : b ∈ bs) (hc : c ∈ bs) (he : b.addr = c.addr) : b = c := by
  by_contra hne
  have := h.disjoint hb hc hne
  simp only [Blk.fin, metadataSize] at this
  omega

/-- The blocks fit below the break, so there are fewer of them than addresses, and their sizes do
not add up to `2 ^ 64`. -/
theorem total_le (h : s.Repr bs) :
    metadataSize * bs.length + (bs.map Blk.size).sum ≤ s.brk := by
  have key : ∀ (l : List Blk) (lo hi : ℕ), l.Pairwise (fun a b => a.fin ≤ b.addr) →
      (∀ b ∈ l, lo ≤ b.addr) → (∀ b ∈ l, b.fin ≤ hi) → lo ≤ hi →
      lo + (metadataSize * l.length + (l.map Blk.size).sum) ≤ hi := by
    intro l
    induction l with
    | nil => intro lo hi _ _ _ hle; simpa using hle
    | cons a l ih =>
      intro lo hi hp hlo hhi _
      -- the rest of the list lies above the first block
      have hrest := ih a.fin hi hp.of_cons (fun b hb => List.rel_of_pairwise_cons hp hb)
        (fun b hb => hhi b (List.mem_cons_of_mem a hb)) (hhi a List.mem_cons_self)
      have ha := hlo a List.mem_cons_self
      simp only [Blk.fin, List.length_cons, List.map_cons, List.sum_cons, Nat.mul_add,
        Nat.mul_one] at hrest ⊢
      omega
  have := key bs 0 s.brk h.apart (fun b _ => Nat.zero_le b.addr) h.below (Nat.zero_le _)
  rwa [Nat.zero_add] at this

theorem length_lt (h : s.Repr bs) : bs.length < wordLimit := by
  have h1 := h.total_le
  have h2 := h.brk_lt
  simp only [metadataSize] at h1
  omega

/-- A traversal of the list terminates and reads the blocks. -/
theorem blocks_eq (h : s.Repr bs) : s.blocks = some bs := by
  have hread : ∀ b ∈ bs, (⟨b.addr, s.size b.addr, s.isFree b.addr⟩ : Blk) = id b := by
    intro b hb
    rw [h.size_eq b hb, h.isFree_eq b hb]
    rfl
  rw [blocks, foldNodes_collect h.chain h.length_lt hread, List.map_id]

/-- Only the headers, the list head and the break matter. -/
theorem congr (h : s.Repr bs) (hmem : Set.EqOn s'.mem s.mem (headers bs))
    (hlist : s'.globalPointersList = s.globalPointersList) (hbrk : s.brk ≤ s'.brk)
    (hlt : s'.brk < wordLimit) : s'.Repr bs := by
  have hget : ∀ f : Field, ∀ b ∈ bs, metadata.get f s'.mem b.addr = metadata.get f s.mem b.addr :=
    fun f b hb => Layout.get_congr fun x hx => hmem ⟨b, hb, hx.1, hx.2⟩
  refine ⟨?_, fun b hb => ?_, fun b hb => ?_, h.apart, fun b hb => (h.below b hb).trans hbrk,
    h.brk_pos.trans_le hbrk, hlt⟩
  · rw [hlist]
    apply h.chain.congr
    intro a ha
    obtain ⟨b, hb, rfl⟩ := List.mem_map.mp ha
    exact hget .next b hb
  · rw [← h.size_eq b hb]
    exact hget .size b hb
  · rw [← h.isFree_eq b hb, isFree, isFree, hget .is_free b hb]

/-! ### The search -/

theorem findFree_eq (h : s.Repr bs) (size : ℕ) :
    s.findFree size = some ((bs.find? (Blk.fitsRequest size)).elim 0 Blk.addr) := by
  -- on a node of the list the test of the loop is the one on blocks
  have htest : ∀ b ∈ bs, (decide (size ≤ s.size b.addr) && s.isFree b.addr)
      = b.fitsRequest size := by
    intro b hb
    rw [h.size_eq b hb, h.isFree_eq b hb, Blk.fitsRequest]
  have hchain := h.chain
  have hlen := h.length_lt
  cases hfind : bs.find? (Blk.fitsRequest size) with
  | none =>
    rw [List.find?_eq_none] at hfind
    -- the loop runs to the null link
    rw [findFree, scan_miss hchain ?_ (by simpa using hlen)]
    · rfl
    · intro a ha
      obtain ⟨b, hb, rfl⟩ := List.mem_map.mp ha
      rw [htest b hb]
      exact Bool.eq_false_iff.mpr (hfind b hb)
  | some b =>
    obtain ⟨hb, pre, post, rfl, hpre⟩ := List.find?_eq_some_iff_append.mp hfind
    rw [List.map_append, List.map_cons] at hchain
    -- the loop stops at the first block that passes
    rw [findFree, scan_hit hchain ?_ ?_ (by simp at hlen ⊢; omega)]
    · rfl
    · intro a ha
      obtain ⟨c, hc, rfl⟩ := List.mem_map.mp ha
      rw [htest c (List.mem_append_left _ hc)]
      simpa using hpre c hc
    · rw [htest b (by simp), hb]

/-! ### Writing headers -/

/-- Writing the flag of one block. -/
theorem assign_isFree (h : s.Repr bs) (hb : b ∈ bs) {v : ℕ} (hv : v < 256) :
    (s.assign .is_free b.addr v).Repr (markFree b.addr (decide (v ≠ 0)) bs) := by
  -- the other headers are apart, and the other fields of this one are untouched
  have hget : ∀ f : Field, f ≠ .is_free → ∀ c ∈ bs,
      metadata.get f (s.assign .is_free b.addr v).mem c.addr = metadata.get f s.mem c.addr := by
    intro f hf c hc
    exact Layout.get_set_other (h.same_or_apart hb hc) hf.symm
  refine ⟨?_, fun d hd => ?_, fun d hd => ?_, ?_, fun d hd => ?_, h.brk_pos, h.brk_lt⟩
  · rw [map_addr_markFree]
    apply h.chain.congr
    intro a ha
    obtain ⟨c, hc, rfl⟩ := List.mem_map.mp ha
    exact hget .next Field.noConfusion c hc
  · obtain ⟨c, hc, rfl⟩ := mem_markFree.mp hd
    have hsize : (s.assign .is_free b.addr v).size c.addr = c.size := by
      rw [← h.size_eq c hc]
      exact hget .size Field.noConfusion c hc
    split_ifs
    · exact hsize
    · exact hsize
  · obtain ⟨c, hc, rfl⟩ := mem_markFree.mp hd
    split_ifs with hca
    · obtain rfl := h.eq_of_addr hc hb hca
      show decide (metadata.get .is_free (metadata.set .is_free s.mem c.addr v) c.addr ≠ 0) = _
      rw [Layout.get_set_same (show v < 256 ^ 1 by omega)]
    · have hapart := (h.same_or_apart hb hc).resolve_left (Ne.symm hca)
      rw [← h.isFree_eq c hc]
      show decide (metadata.get .is_free (metadata.set .is_free s.mem b.addr v) c.addr ≠ 0) = _
      rw [Layout.get_set_of_apart hapart]
      rfl
  · rw [markFree, List.pairwise_map]
    refine h.apart.imp fun {c d} hcd => ?_
    split_ifs <;> exact hcd
  · obtain ⟨c, hc, rfl⟩ := mem_markFree.mp hd
    have := h.below c hc
    split_ifs <;> exact this

theorem reuse (h : s.Repr bs) (hb : b ∈ bs) : (s.reuse b.addr).Repr (markFree b.addr false bs) :=
  (h.assign_isFree hb (show 0 < 256 by omega)).congr (fun _ _ => rfl) rfl le_rfl h.brk_lt

/-- What makes one more block the last of the list. -/
theorem append (h : s.Repr bs) {r size : ℕ} (hsize : s.size r = size) (hfree : s.isFree r = false)
    (habove : ∀ b ∈ bs, b.fin ≤ r) (hbelow : r + metadataSize + size ≤ s.brk)
    (hbrk : s'.brk = s.brk)
    (hchain : Chain s'.next s'.globalPointersList (bs.map Blk.addr ++ [r]))
    (hget : ∀ f, f ≠ .next → f ≠ .prev → ∀ a, a = r ∨ a ∈ bs.map Blk.addr →
      metadata.get f s'.mem a = metadata.get f s.mem a) :
    s'.Repr (bs ++ [⟨r, size, false⟩]) := by
  -- only links have been written, so sizes and flags are as before
  have hsize' : ∀ a, a = r ∨ a ∈ bs.map Blk.addr → s'.size a = s.size a :=
    hget .size Field.noConfusion Field.noConfusion
  have hfree' : ∀ a, a = r ∨ a ∈ bs.map Blk.addr → s'.isFree a = s.isFree a := by
    intro a ha
    rw [isFree, isFree, hget .is_free Field.noConfusion Field.noConfusion a ha]
  refine ⟨by simpa using hchain, fun d hd => ?_, fun d hd => ?_, ?_, fun d hd => ?_,
    hbrk ▸ h.brk_pos, hbrk ▸ h.brk_lt⟩
  · obtain hd | hd := List.mem_append.mp hd
    · rw [hsize' _ (Or.inr (List.mem_map_of_mem hd)), h.size_eq d hd]
    · obtain rfl := List.mem_singleton.mp hd
      rw [hsize' _ (Or.inl rfl), hsize]
  · obtain hd | hd := List.mem_append.mp hd
    · rw [hfree' _ (Or.inr (List.mem_map_of_mem hd)), h.isFree_eq d hd]
    · obtain rfl := List.mem_singleton.mp hd
      rw [hfree' _ (Or.inl rfl), hfree]
  · -- the new block lies above all others
    refine List.pairwise_append.mpr ⟨h.apart, List.pairwise_singleton _ _, fun b hb c hc => ?_⟩
    obtain rfl := List.mem_singleton.mp hc
    exact habove b hb
  · obtain hd | hd := List.mem_append.mp hd
    · exact hbrk ▸ h.below d hd
    · obtain rfl := List.mem_singleton.mp hd
      exact hbrk ▸ hbelow

/-- A free block is marked free already. -/
theorem markFree_of_isFree (h : s.Repr bs) (hb : b ∈ bs) (hfree : b.isFree = true) :
    markFree b.addr true bs = bs := by
  refine (List.map_congr_left fun c hc => ?_).trans (List.map_id' bs)
  split_ifs with hca
  · obtain rfl := h.eq_of_addr hc hb hca
    rw [← hfree]
  · rfl

theorem payload_ne_zero (h : s.Repr bs) (hb : b ∈ bs) : b.payload ≠ 0 := by
  have := h.addr_ne_zero hb
  rw [Blk.payload]
  omega

theorem sfree_eq (h : s.Repr bs) (hb : b ∈ bs) :
    s.sfree b.payload = if b.isFree then s else
      { s.assign .is_free b.addr 1 with
        num_of_free_blocks := (s.num_of_free_blocks + 1) % wordLimit
        num_of_free_bytes := (s.num_of_free_bytes + b.size) % wordLimit } := by
  have hhdr : b.payload - metadataSize = b.addr := Nat.add_sub_cancel _ _
  simp only [Heap.sfree, if_neg (h.payload_ne_zero hb), hhdr, h.isFree_eq b hb, h.size_eq b hb]

/-- `sfree` of a block's payload sets its flag, whatever it was. -/
theorem sfree (h : s.Repr bs) (hb : b ∈ bs) :
    (s.sfree b.payload).Repr (markFree b.addr true bs) := by
  rw [h.sfree_eq hb]
  by_cases hfree : b.isFree = true
  · rw [if_pos hfree, h.markFree_of_isFree hb hfree]
    exact h
  · rw [if_neg hfree]
    exact (h.assign_isFree hb (show 1 < 256 by omega)).congr (fun _ _ => rfl) rfl le_rfl h.brk_lt

/-- `sfree` writes the one header only. -/
theorem sfree_mem_eqOn (h : s.Repr bs) (hb : b ∈ bs) :
    Set.EqOn (s.sfree b.payload).mem s.mem (headers bs)ᶜ := by
  intro x hx
  rw [h.sfree_eq hb]
  split_ifs
  · rfl
  · exact Layout.set_apply_out (out_of_headers hx hb)

/-- Writing inside a payload. -/
theorem of_payload (h : s.Repr bs) (hb : b ∈ bs) {m : Mem}
    (hm : ∀ x, x < b.payload ∨ b.fin ≤ x → m x = s.mem x) :
    ({ s with mem := m } : Heap).Repr bs := by
  refine h.congr (fun x hx => hm x ?_) rfl le_rfl h.brk_lt
  obtain ⟨c, hc, h1, h2⟩ := hx
  by_cases hbc : b = c
  · exact Or.inl (hbc ▸ h2)
  · have := h.disjoint hb hc hbc
    simp only [Blk.payload, Blk.fin] at this h2 ⊢
    omega

section Link

variable {r size : ℕ}

/-- A header written above all blocks is apart from theirs. -/
theorem apart_of_above (habove : ∀ b ∈ bs, b.fin ≤ r) (hb : b ∈ bs) :
    r + metadata.size ≤ b.addr ∨ b.addr + metadata.size ≤ r := by
  have := habove b hb
  simp only [Blk.fin, metadataSize] at this
  simp only [metadata]
  omega

/-- The first block: the list starts with it. -/
theorem link_nil (h : s.Repr []) (hsize : s.size r = size) (hfree : s.isFree r = false)
    (hr : r ≠ 0) (hbelow : r + metadataSize + size ≤ s.brk) :
    ∃ m l, s.link r = some { s with mem := m, globalPointersList := l } ∧
      ({ s with mem := m, globalPointersList := l } : Heap).Repr [⟨r, size, false⟩] ∧
      Set.EqOn m s.mem (headers [⟨r, size, false⟩])ᶜ := by
  have hhead : s.globalPointersList = 0 := h.chain.start_eq
  refine ⟨_, _, by rw [Heap.link, if_pos hhead]; rfl, ?_, ?_⟩
  · refine h.append hsize hfree (fun b hb => absurd hb List.not_mem_nil) hbelow rfl ⟨rfl, hr, ?_⟩
      fun f hn hp a ha => ?_
    · exact Layout.get_set_same (by decide)
    · obtain rfl : a = r := by simpa using ha
      exact (Layout.get_set_of_ne hn.symm).trans (Layout.get_set_of_ne hp.symm)
  · intro x hx
    have hxr := out_of_headers hx List.mem_cons_self
    exact (Layout.set_apply_out hxr).trans (Layout.set_apply_out hxr)

/-- A further block: the last one of the list is linked to it. -/
theorem link_concat {pre : List Blk} {e : Blk} (h : s.Repr (pre ++ [e])) (hsize : s.size r = size)
    (hfree : s.isFree r = false) (hr : r ≠ 0) (habove : ∀ b ∈ pre ++ [e], b.fin ≤ r)
    (hbelow : r + metadataSize + size ≤ s.brk) :
    ∃ m l, s.link r = some { s with mem := m, globalPointersList := l } ∧
      ({ s with mem := m, globalPointersList := l } : Heap).Repr
        (pre ++ [e] ++ [⟨r, size, false⟩]) ∧
      Set.EqOn m s.mem (headers (pre ++ [e] ++ [⟨r, size, false⟩]))ᶜ := by
  have hrlt : r < 256 ^ 8 := by
    have hbrk := h.brk_lt
    simp only [metadataSize, wordLimit] at hbelow hbrk
    omega
  have he : e ∈ pre ++ [e] := by simp
  have heapart := apart_of_above habove he
  have hhead : s.globalPointersList ≠ 0 := by
    rw [Ne, h.chain.start_eq_zero_iff]
    simp
  have hscan : scan s.next (fun _ => false) wordLimit 0 s.globalPointersList
      = some (e.addr, 0) := by
    rw [scan_miss h.chain (fun _ _ => rfl) (by simpa using h.length_lt)]
    simp
  refine ⟨_, _, by rw [Heap.link, if_neg hhead, hscan]; rfl, ?_, ?_⟩
  · have hchain := h.chain
    rw [List.map_append] at hchain
    refine h.append hsize hfree habove hbelow rfl ?_ fun f hn hp a ha => ?_
    · rw [List.map_append, List.append_assoc]
      refine hchain.replace_tail (fun a ha => ?_) ⟨?_, hr, ?_⟩
      · -- a node before the last one is apart from both the last one and the new one
        obtain ⟨c, hc, rfl⟩ := List.mem_map.mp ha
        have hc' : c ∈ pre ++ [e] := List.mem_append_left _ hc
        have hce := (List.pairwise_append.mp h.apart).2.2 c hc e (by simp)
        refine (Layout.get_set_of_apart (apart_of_above habove hc')).trans
          ((Layout.get_set_of_apart ?_).trans
            (Layout.get_set_of_apart (apart_of_above habove hc')))
        simp only [Blk.fin, metadataSize] at hce
        simp only [metadata]
        omega
      · exact (Layout.get_set_of_apart heapart).trans (Layout.get_set_same hrlt)
      · exact Layout.get_set_same (by decide)
    · -- every other field of every header stays
      have hra : r = a ∨ r + metadata.size ≤ a ∨ a + metadata.size ≤ r := by
        obtain rfl | ha := ha
        · exact Or.inl rfl
        · obtain ⟨c, hc, rfl⟩ := List.mem_map.mp ha
          exact Or.inr (apart_of_above habove hc)
      have hea : e.addr = a ∨ e.addr + metadata.size ≤ a ∨ a + metadata.size ≤ e.addr := by
        obtain rfl | ha := ha
        · exact Or.inr heapart.symm
        · obtain ⟨c, hc, rfl⟩ := List.mem_map.mp ha
          exact h.same_or_apart he hc
      exact (Layout.get_set_other hra hn.symm).trans
        ((Layout.get_set_other hea hn.symm).trans (Layout.get_set_other hra hp.symm))
  · intro x hx
    have hxr := out_of_headers hx (List.mem_append_right _ List.mem_cons_self)
    have hxe := out_of_headers hx (List.mem_append_left _ he)
    exact (Layout.set_apply_out hxr).trans
      ((Layout.set_apply_out hxe).trans (Layout.set_apply_out hxr))

/-- The last step of growing: a header written above all blocks becomes the last of them. -/
theorem link (h : s.Repr bs) (hsize : s.size r = size) (hfree : s.isFree r = false) (hr : r ≠ 0)
    (habove : ∀ b ∈ bs, b.fin ≤ r) (hbelow : r + metadataSize + size ≤ s.brk) :
    ∃ m l, s.link r = some { s with mem := m, globalPointersList := l } ∧
      ({ s with mem := m, globalPointersList := l } : Heap).Repr (bs ++ [⟨r, size, false⟩]) ∧
      Set.EqOn m s.mem (headers (bs ++ [⟨r, size, false⟩]))ᶜ := by
  obtain rfl | ⟨pre, e, rfl⟩ := List.eq_nil_or_concat' bs
  · exact h.link_nil hsize hfree hr hbelow
  · exact h.link_concat hsize hfree hr habove hbelow

end Link

/-- Where a block stands in the list, and what setting its flag does there. -/
theorem exists_split (h : s.Repr bs) (hb : b ∈ bs) :
    ∃ pre post, bs = pre ++ b :: post ∧
      ∀ v, markFree b.addr v bs = pre ++ { b with isFree := v } :: post := by
  obtain ⟨pre, post, rfl⟩ := List.append_of_mem hb
  refine ⟨pre, post, rfl, fun v => ?_⟩
  have hp := List.pairwise_append.mp h.apart
  have hpre : ∀ c ∈ pre, c.addr ≠ b.addr := by
    intro c hc
    have := hp.2.2 c hc b List.mem_cons_self
    simp only [Blk.fin, metadataSize] at this
    omega
  have hpost : ∀ c ∈ post, c.addr ≠ b.addr := by
    intro c hc
    have := List.rel_of_pairwise_cons hp.2.1 hc
    simp only [Blk.fin, metadataSize] at this
    omega
  rw [markFree, List.map_append, List.map_cons, if_pos rfl]
  congr 1
  · exact (List.map_congr_left fun c hc => if_neg (hpre c hc)).trans (List.map_id' pre)
  · congr 1
    exact (List.map_congr_left fun c hc => if_neg (hpost c hc)).trans (List.map_id' post)

end Repr

/-! ### The allocation path -/

/-- What a function must write into a new header before it is linked. -/
structure Initialises (size : ℕ) (init : ℕ → Heap → Heap) : Prop where
  frame : ∀ r s, ∃ m, init r s = { s with mem := m } ∧
    ∀ x, x < r ∨ r + metadataSize ≤ x → m x = s.mem x
  size_eq : ∀ r s, (init r s).size r = size
  isFree_eq : ∀ r s, (init r s).isFree r = false

theorem initBlock_initialises {size : ℕ} (hsize : size < wordLimit) :
    Initialises size (initBlock size) where
  frame r s := ⟨_, rfl, fun _ hx => (Layout.set_apply_out hx).trans (Layout.set_apply_out hx)⟩
  size_eq r s :=
    (Layout.get_set_of_ne Field.noConfusion).trans (Layout.get_set_same hsize)
  isFree_eq r s := by
    have : metadata.get .is_free (initBlock size r s).mem r = 0 := Layout.get_set_same (by decide)
    rw [isFree, this]
    rfl

theorem initCleared_initialises {size : ℕ} (hsize : size < wordLimit) :
    Initialises size (initCleared size) where
  frame r s := ⟨_, rfl, fun _ hx => (Layout.set_apply_out hx).trans
    ((Layout.set_apply_out hx).trans (Layout.set_apply_out hx))⟩
  size_eq r s := Layout.get_set_same hsize
  isFree_eq r s := by
    have : metadata.get .is_free (initCleared size r s).mem r = 0 :=
      (Layout.get_set_of_ne Field.noConfusion).trans
        ((Layout.get_set_of_ne Field.noConfusion).trans (Layout.get_set_same (by decide)))
    rw [isFree, this]
    rfl

/-- All the allocation path can do, up to the work on the payload: it is refused, it reuses the
first free block that is large enough, or there is none and it appends one. The indices are the
pointer, the heap and the blocks that result. -/
inductive Allocates (s : Heap) (bs : List Blk) (size : ℕ) : ℕ → Heap → List Blk → Prop
  | refused (hnone : bs.find? (Blk.fitsRequest size) = none) : Allocates s bs size 0 s bs
  | reused {b : Blk} (hfind : bs.find? (Blk.fitsRequest size) = some b) :
      Allocates s bs size b.payload (s.reuse b.addr) (markFree b.addr false bs)
  | grown {r l : ℕ} {m : Mem} (hnone : bs.find? (Blk.fitsRequest size) = none)
      (hbrk : s.brk ≤ r) (hlt : r + (size + metadataSize) < wordLimit)
      (hrepr : ({ s.countNew size with
        mem := m, brk := r + (size + metadataSize), globalPointersList := l } : Heap).Repr
          (bs ++ [⟨r, size, false⟩]))
      (hmem : Set.EqOn m s.mem (headers (bs ++ [⟨r, size, false⟩]))ᶜ) :
      Allocates s bs size (r + metadataSize)
        { s.countNew size with
          mem := m, brk := r + (size + metadataSize), globalPointersList := l }
        (bs ++ [⟨r, size, false⟩])

/-- Growing the heap: the bytes below the old break are as before, the new block is the last. -/
theorem Repr.grow (h : s.Repr bs) {size r : ℕ} {init : ℕ → Heap → Heap}
    (hinit : Initialises size init) (hbrk : s.brk ≤ r)
    (hlt : r + (size + metadataSize) < wordLimit) :
    ∃ m l, (init r (({ s with brk := r + (size + metadataSize) } : Heap).countNew size)).link r
        = some { s.countNew size with
            mem := m, brk := r + (size + metadataSize), globalPointersList := l } ∧
      ({ s.countNew size with
        mem := m, brk := r + (size + metadataSize), globalPointersList := l } : Heap).Repr
          (bs ++ [⟨r, size, false⟩]) ∧
      Set.EqOn m s.mem (headers (bs ++ [⟨r, size, false⟩]))ᶜ := by
  set t : Heap := ({ s with brk := r + (size + metadataSize) } : Heap).countNew size with ht
  obtain ⟨m₀, hm₀, hout⟩ := hinit.frame r t
  have hsize := hinit.size_eq r t
  have hfree := hinit.isFree_eq r t
  rw [hm₀] at hsize hfree ⊢
  have habove : ∀ b ∈ bs, b.fin ≤ r := fun b hb => (h.below b hb).trans hbrk
  -- the new header is written above all blocks, which stay as they are
  have hold : ({ t with mem := m₀ } : Heap).Repr bs := by
    refine h.congr (fun x hx => ?_) rfl ?_ hlt
    · obtain ⟨b, hb, -, hx⟩ := hx
      have := habove b hb
      simp only [Blk.fin, Blk.payload] at this hx
      exact hout x (Or.inl (by omega))
    · exact hbrk.trans (Nat.le_add_right r _)
  have hr : r ≠ 0 := (h.brk_pos.trans_le hbrk).ne'
  have hbelow : r + metadataSize + size ≤ t.brk := by
    show r + metadataSize + size ≤ r + (size + metadataSize)
    omega
  -- then it is linked behind the last of them
  obtain ⟨m, l, hlink, hrepr, hmem⟩ := hold.link hsize hfree hr habove hbelow
  refine ⟨m, l, hlink, hrepr, fun x hx => (hmem hx).trans (hout x ?_)⟩
  exact out_of_headers hx (List.mem_append_right bs List.mem_cons_self)

/-- **The allocation path** on a well-formed heap: it returns, and does one of the three things. -/
theorem Repr.allocate (h : s.Repr bs) {outcome : Option ℕ} {size : ℕ}
    {init finish : ℕ → Heap → Heap} (hinit : Initialises size init) :
    ∃ p s₁ bs₁, Allocates s bs size p s₁ bs₁ ∧
      s.allocate outcome size init finish = some (p, if p = 0 then s₁ else finish p s₁) := by
  have hsearch := h.findFree_eq size
  cases hfind : bs.find? (Blk.fitsRequest size) with
  | some b =>
    have hb : b.addr ≠ 0 := h.addr_ne_zero (List.mem_of_find?_eq_some hfind)
    have hp : b.payload ≠ 0 := h.payload_ne_zero (List.mem_of_find?_eq_some hfind)
    -- a block that fits is taken, and `sbrk` is not called
    refine ⟨_, _, _, .reused hfind, ?_⟩
    rw [hfind] at hsearch
    rw [Heap.allocate, hsearch, if_neg hp, Option.bind_eq_bind, Option.bind_some, Option.elim_some,
      if_pos hb]
    rfl
  | none =>
    rw [hfind] at hsearch
    rw [Heap.allocate, hsearch, Option.bind_eq_bind, Option.bind_some, Option.elim_none,
      if_neg (not_not.mpr rfl)]
    match outcome with
    -- `sbrk` fails
    | none => exact ⟨0, s, bs, .refused hfind, rfl⟩
    | some gap =>
      by_cases hlt : s.brk + gap + (size + metadataSize) < wordLimit
      · have hbrk : s.brk ≤ s.brk + gap := Nat.le_add_right _ _
        obtain ⟨m, l, hlink, hrepr, hmem⟩ := h.grow hinit hbrk hlt
        refine ⟨_, _, _, .grown hfind hbrk hlt hrepr hmem, ?_⟩
        rw [if_neg (by simp only [metadataSize]; omega)]
        simp only [Heap.sbrk, if_pos hlt, hlink]
        rfl
      · -- the address space is exhausted
        refine ⟨0, s, bs, .refused hfind, ?_⟩
        simp only [Heap.sbrk, if_neg hlt]
        rfl

namespace Allocates

variable {s₁ : Heap} {bs₁ : List Blk} {p size : ℕ}

theorem repr (ha : Allocates s bs size p s₁ bs₁) (h : s.Repr bs) : s₁.Repr bs₁ := by
  cases ha with
  | refused => exact h
  | reused hfind => exact h.reuse (List.mem_of_find?_eq_some hfind)
  | grown _ _ _ hrepr _ => exact hrepr

/-- No byte outside the headers changes. -/
theorem mem_eqOn (ha : Allocates s bs size p s₁ bs₁) :
    Set.EqOn s₁.mem s.mem (headers bs₁)ᶜ := by
  cases ha with
  | refused => exact fun _ _ => rfl
  | @reused b hfind =>
    intro x hx
    rw [headers_markFree] at hx
    exact Layout.set_apply_out (out_of_headers hx (List.mem_of_find?_eq_some hfind))
  | grown _ _ _ _ hmem => exact hmem

/-- A pointer that is returned is the payload of a block in use that holds the request, and the
block was not in use before. -/
theorem exists_block (ha : Allocates s bs size p s₁ bs₁) (h : s.Repr bs) (hp : p ≠ 0) :
    ∃ b ∈ bs₁, b.payload = p ∧ b.isFree = false ∧ size ≤ b.size ∧
      ∀ c ∈ bs, c.isFree = false → c.payload ≠ p := by
  cases ha with
  | refused => exact absurd rfl hp
  | @reused b hfind =>
    have hb := List.mem_of_find?_eq_some hfind
    have hfit := List.find?_some hfind
    rw [Blk.fitsRequest, Bool.and_eq_true, decide_eq_true_iff] at hfit
    refine ⟨{ b with isFree := false }, mem_markFree.mpr ⟨b, hb, (if_pos rfl).symm⟩, rfl, rfl,
      hfit.1, fun c hc hfree heq => ?_⟩
    obtain rfl : c = b := h.eq_of_addr hc hb (by simp only [Blk.payload] at heq; omega)
    rw [hfit.2] at hfree
    exact Bool.noConfusion hfree
  | @grown r _ _ hnone hbrk hlt hrepr hmem =>
    refine ⟨⟨r, size, false⟩, by simp, rfl, rfl, le_rfl, fun c hc _ heq => ?_⟩
    have := h.below c hc
    simp only [Blk.payload, Blk.fin, metadataSize] at this heq
    omega

/-- The blocks that were in use still are, at their place and of their size. -/
theorem inUse_mem (ha : Allocates s bs size p s₁ bs₁) (hc : c ∈ bs)
    (hfree : c.isFree = false) : c ∈ bs₁ := by
  cases ha with
  | refused => exact hc
  | @reused b hfind =>
    refine mem_markFree.mpr ⟨c, hc, ?_⟩
    split_ifs
    · rw [← hfree]
    · rfl
  | grown => exact List.mem_append_left _ hc

/-- A block too small for the request is not the one that is taken. -/
theorem small_mem (ha : Allocates s bs size p s₁ bs₁) (h : s.Repr bs) (hc : c ∈ bs)
    (hsmall : c.size < size) : c ∈ bs₁ ∧ c.payload ≠ p := by
  cases ha with
  | refused => exact ⟨hc, h.payload_ne_zero hc⟩
  | @reused b hfind =>
    have hb := List.mem_of_find?_eq_some hfind
    have hfit := List.find?_some hfind
    rw [Blk.fitsRequest, Bool.and_eq_true, decide_eq_true_iff] at hfit
    have hne : c.addr ≠ b.addr := fun heq => by
      obtain rfl := h.eq_of_addr hc hb heq
      exact absurd hfit.1 (not_le.mpr hsmall)
    refine ⟨mem_markFree.mpr ⟨c, hc, (if_neg hne).symm⟩, fun heq => hne ?_⟩
    exact Nat.add_right_cancel heq
  | @grown r _ _ hnone hbrk hlt hrepr hmem =>
    refine ⟨List.mem_append_left _ hc, fun heq => ?_⟩
    have := h.below c hc
    simp only [Blk.payload, Blk.fin, metadataSize] at this heq
    omega

/-- Every block keeps its place. -/
theorem payload_mem (ha : Allocates s bs size p s₁ bs₁) (hc : c ∈ bs) :
    ∃ d ∈ bs₁, d.payload = c.payload := by
  cases ha with
  | refused => exact ⟨c, hc, rfl⟩
  | reused => exact payload_mem_markFree hc
  | grown => exact ⟨c, List.mem_append_left _ hc, rfl⟩

/-- A call that returns no block has done nothing. -/
theorem eq_of_null (ha : Allocates s bs size p s₁ bs₁) (h : s.Repr bs) (hp : p = 0) :
    s₁ = s ∧ bs₁ = bs := by
  cases ha with
  | refused => exact ⟨rfl, rfl⟩
  | reused hfind => exact absurd hp (h.payload_ne_zero (List.mem_of_find?_eq_some hfind))
  | grown =>
    simp only [metadataSize] at hp
    omega

end Allocates

/-! ### The functions -/

theorem maxRequest_lt : maxRequest < wordLimit := by
  simp only [maxRequest, wordLimit]
  omega

/-- `smalloc`: the request is invalid, or the allocation path is taken. -/
theorem Repr.smalloc (h : s.Repr bs) (outcome : Option ℕ) (size : ℕ) :
    s.smalloc outcome size = some (0, s) ∨
      ∃ p s₁ bs₁, Allocates s bs size p s₁ bs₁ ∧ s.smalloc outcome size = some (p, s₁) := by
  rw [smalloc_eq_allocate]
  split_ifs with h0 hmax
  · exact Or.inl rfl
  · exact Or.inl rfl
  · have hsize : size < wordLimit := (not_lt.mp hmax).trans_lt maxRequest_lt
    obtain ⟨p, s₁, bs₁, ha, heq⟩ := h.allocate (initCleared_initialises hsize)
    exact Or.inr ⟨p, s₁, bs₁, ha, by rw [heq, ite_self]⟩

theorem Repr.scalloc (h : s.Repr bs) (outcome : Option ℕ) (num size : ℕ) :
    s.scalloc outcome num size = some (0, s) ∨
      ∃ p s₁ bs₁, Allocates s bs (size * num % wordLimit) p s₁ bs₁ ∧
        s.scalloc outcome num size
          = some (p, if p = 0 then s₁ else s₁.memset p (size * num % wordLimit)) := by
  rw [scalloc_eq_allocate]
  split_ifs with h0 hmax
  · exact Or.inl rfl
  · exact Or.inl rfl
  · have hsize : size * num % wordLimit < wordLimit := (not_lt.mp hmax).trans_lt maxRequest_lt
    obtain ⟨p, s₁, bs₁, ha, heq⟩ := h.allocate (initBlock_initialises hsize)
    exact Or.inr ⟨p, s₁, bs₁, ha, heq⟩

/-- `srealloc` of a block's payload: the request is invalid, or the block is large enough, or the
allocation path is taken for a larger one. -/
theorem Repr.srealloc (h : s.Repr bs) (hb : b ∈ bs) (outcome : Option ℕ) (beyond : ℕ → UInt8)
    (size : ℕ) :
    s.srealloc outcome beyond b.payload size = some (0, s) ∨
      (size ≤ b.size ∧ s.srealloc outcome beyond b.payload size = some (b.payload, s)) ∨
      ∃ p s₁ bs₁, b.size < size ∧ Allocates s bs size p s₁ bs₁ ∧
        s.srealloc outcome beyond b.payload size
          = some (p, if p = 0 then s₁ else
              (s₁.memcpy p b.payload size b.size beyond).sfree b.payload) := by
  have hhdr : b.payload - metadataSize = b.addr := Nat.add_sub_cancel _ _
  rw [srealloc_eq_allocate, if_neg (h.payload_ne_zero hb), hhdr, h.size_eq b hb]
  split_ifs with h0 hmax hsmall
  · exact Or.inl rfl
  · exact Or.inl rfl
  · exact Or.inr (Or.inl ⟨hsmall, rfl⟩)
  · have hsize : size < wordLimit := (not_lt.mp hmax).trans_lt maxRequest_lt
    obtain ⟨p, s₁, bs₁, ha, heq⟩ := h.allocate (initBlock_initialises hsize)
    exact Or.inr (Or.inr ⟨p, s₁, bs₁, not_le.mp hsmall, ha, heq⟩)

/-- `memset` and `memcpy` of at most a block's size stay in its payload. -/
theorem Repr.blit (h : s.Repr bs) (hb : b ∈ bs) {n : ℕ} (hn : n ≤ b.size) (f : ℕ → UInt8) :
    ({ s with mem := s.mem.blit b.payload n f } : Heap).Repr bs := by
  refine h.of_payload hb fun x hx => Mem.blit_apply_out ?_
  simp only [Blk.payload, Blk.fin] at hx ⊢
  omega

/-- A client writing one byte of a payload. -/
theorem Repr.write (h : s.Repr bs) (hb : b ∈ bs) {i : ℕ} (hi : i < b.size) (v : UInt8) :
    ({ s with mem := Function.update s.mem (b.payload + i) v } : Heap).Repr bs := by
  refine h.of_payload hb fun x hx => Function.update_of_ne ?_ _ _
  simp only [Blk.payload, Blk.fin] at hx ⊢
  omega

theorem Repr.memset (h : s.Repr bs) (hb : b ∈ bs) {n : ℕ} (hn : n ≤ b.size) :
    (s.memset b.payload n).Repr bs := h.blit hb hn fun _ => 0

theorem Repr.fresh (h : s.Fresh) : s.Repr [] where
  chain := h.list
  size_eq _ hb := absurd hb List.not_mem_nil
  isFree_eq _ hb := absurd hb List.not_mem_nil
  apart := List.Pairwise.nil
  below _ hb := absurd hb List.not_mem_nil
  brk_pos := h.brk_pos
  brk_lt := h.brk_lt

end Heap

end OsHomework.Malloc2
