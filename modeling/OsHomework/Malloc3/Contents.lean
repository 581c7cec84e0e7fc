import OsHomework.Malloc2.Integrity
import OsHomework.Malloc3.Integrity

/-!
# What a client of `malloc_3` sees

The buddy allocator splits and merges blocks, writes headers into free memory and hands out one
address many times. A client sees nothing of that: the contents of the payloads it holds
(`Session.contents`) change with every event as `AbsStep` says, which is what is said of the plain
list allocator too. The map from sessions to contents is a refinement mapping along all runs in
which no `sfree` meets a free header of a smaller block where it looks for a buddy
(`contents_refine`).
-/

namespace OsHomework.Malloc3

open Malloc2 (AbsHeap)

/-! ### The abstract heap -/

/-- What an event does to the contents the client holds. -/
inductive AbsStep : AbsHeap → Event → AbsHeap → Prop
  /-- A call that returns `NULL` does nothing. -/
  | refused {A : AbsHeap} {c : Call} (hc : ∀ p, c ≠ .sfree p) : AbsStep A (.call c 0) A
  | smalloc {A : AbsHeap} {os : Answers} {size p : ℕ} {content : List UInt8} (hp : p ≠ 0)
      (hnew : A p = none) (hlen : size ≤ content.length) :
      AbsStep A (.call (.smalloc os size) p) (Function.update A p (some content))
  /-- Unless the product wraps, the requested bytes are zero. -/
  | scalloc {A : AbsHeap} {os : Answers} {num size p : ℕ} {content : List UInt8} (hp : p ≠ 0)
      (hnew : A p = none)
      (hzero : num * size < wordLimit →
        content.take (num * size) = List.replicate (num * size) 0) :
      AbsStep A (.call (.scalloc os num size) p) (Function.update A p (some content))
  | sfreeNull {A : AbsHeap} : AbsStep A (.call (.sfree 0) 0) A
  | sfree {A : AbsHeap} {p : ℕ} {content : List UInt8} (hp : A p = some content) :
      AbsStep A (.call (.sfree p) 0) (Function.update A p none)
  | write {A : AbsHeap} {p i : ℕ} {v : UInt8} {content : List UInt8} (hp : A p = some content)
      (hi : i < content.length) :
      AbsStep A (.write p i v) (Function.update A p (some (content.set i v)))

/-- The abstract heap as a system: it starts empty. -/
def abstractHeap : System AbsHeap Event where
  init A := A = fun _ => none
  step := AbsStep

/-! ### The contents of a session -/

/-- The payload at `p`, up to the end of its block. -/
def Heap.content (s : Heap) (p : ℕ) : List UInt8 := s.mem.bytes p (s.payloadSize p)

open Classical in
/-- What the client can read through the pointers it holds. -/
noncomputable def Session.contents (t : Session) : AbsHeap := fun p =>
  if p ∈ t.live then some (t.heap.content p) else none

section Contents

variable {t u : Session} {p : ℕ}

theorem Session.contents_of_mem (hp : p ∈ t.live) : t.contents p = some (t.heap.content p) :=
  if_pos hp

theorem Session.contents_of_notMem (hp : p ∉ t.live) : t.contents p = none := if_neg hp

theorem Session.contents_congr (hlive : u.live = t.live)
    (hkept : ∀ q ∈ t.live, u.heap.content q = t.heap.content q) : u.contents = t.contents := by
  funext q
  by_cases hq : q ∈ t.live
  · rw [contents_of_mem hq, contents_of_mem (hlive ▸ hq), hkept q hq]
  · rw [contents_of_notMem hq, contents_of_notMem (hlive ▸ hq)]

/-- One payload is new, or new in its contents. -/
theorem Session.contents_insert (hlive : u.live = insert p t.live)
    (hkept : ∀ q ∈ t.live, q ≠ p → u.heap.content q = t.heap.content q) :
    u.contents = Function.update t.contents p (some (u.heap.content p)) := by
  funext q
  by_cases hqp : q = p
  · rw [hqp, Function.update_self]
    exact contents_of_mem (hlive ▸ Set.mem_insert p _)
  · rw [Function.update_of_ne hqp]
    by_cases hq : q ∈ t.live
    · rw [contents_of_mem hq, contents_of_mem (hlive ▸ Set.mem_insert_of_mem p hq), hkept q hq hqp]
    · have hqu : q ∉ u.live := fun hmem => (hlive ▸ hmem : q ∈ insert p t.live).elim hqp hq
      rw [contents_of_notMem hq, contents_of_notMem hqu]

/-- One payload is gone. -/
theorem Session.contents_sdiff (hlive : u.live = t.live \ {p})
    (hkept : ∀ q ∈ t.live, q ≠ p → u.heap.content q = t.heap.content q) :
    u.contents = Function.update t.contents p none := by
  funext q
  by_cases hqp : q = p
  · rw [hqp, Function.update_self]
    exact contents_of_notMem fun hmem => (hlive ▸ hmem : p ∈ t.live \ {p}).2 rfl
  · rw [Function.update_of_ne hqp]
    by_cases hq : q ∈ t.live
    · have hqu : q ∈ u.live := hlive ▸ ⟨hq, hqp⟩
      rw [contents_of_mem hq, contents_of_mem hqu, hkept q hq hqp]
    · have hqu : q ∉ u.live := fun hmem => hq (hlive ▸ hmem : q ∈ t.live \ {p}).1
      rw [contents_of_notMem hq, contents_of_notMem hqu]

end Contents

/-! ### Which payloads a call leaves alone -/

section Blocks

variable {r : ℕ × ℕ} {s s' : Heap} {P P' : Lists} {i j : Slot} {b c : Blk} {os : Answers}
  {size ret k : ℕ}

theorem Ready.payloadSize_eq (h : Ready r s P) (hb : b ∈ P i) :
    s.payloadSize b.payload = b.size - metadataSize := by
  rw [Heap.payloadSize, Blk.payload_sub, (h.repr.node i b hb).size]

theorem Ready.content_eq (h : Ready r s P) (hb : b ∈ P i) :
    s.content b.payload = s.mem.bytes b.payload (b.size - metadataSize) := by
  rw [Heap.content, h.payloadSize_eq hb]

/-- A block that is in the lists before and after keeps its contents, if its bytes are kept. -/
theorem Ready.content_congr (h : Ready r s P) (h' : Ready r s' P') (hb : b ∈ P i) (hb' : b ∈ P' j)
    (hbytes : ∀ n < b.size - metadataSize, s'.mem (b.payload + n) = s.mem (b.payload + n)) :
    s'.content b.payload = s.content b.payload := by
  rw [h.content_eq hb, h'.content_eq hb']
  -- a block of one size in both lists, so that byte by byte is enough
  refine Mem.bytes_congr fun x hx => ?_
  obtain ⟨n, rfl⟩ := Nat.exists_eq_add_of_le hx.1
  exact hbytes n (Nat.lt_of_add_lt_add_left hx.2)

/-- Writing inside one payload leaves the contents of the others. -/
theorem Ready.content_of_payload {m : Mem} (h : Ready r s P) (hb : b ∈ P i) (hc : c ∈ P j)
    (hne : c.payload ≠ b.payload)
    (hm : ∀ x, x < b.payload ∨ b.addr + b.size ≤ x → m x = s.mem x) :
    (s.setMem m).content c.payload = s.content c.payload := by
  refine h.content_congr (h.of_payload hb hm) hc hc fun n hn => hm _ ?_
  -- two blocks do not overlap, and the writes stay inside one of them
  have hsep := h.separate hb hc fun heq => hne (congrArg (· + metadataSize) heq.symm)
  have hlen := h.metadataSize_lt hb
  rw [Blk.payload, Blk.payload]
  omega

/-- A block in use stays where it is when another one is taken. -/
theorem Allocates.mem_of_inUse {base : ℕ} (h : Allocates P os size ret P') (ht : P.Tiling base)
    (hc : c ∈ P i) (hcf : c.isFree = false) : c ∈ P' i := by
  cases h with
  | refused => exact hc
  | @pool index n b hn hb hfree hfits =>
    refine (ht.mem_take hb hn).mpr (Or.inl ⟨hc, fun hi haddr => ?_⟩)
    -- the block that is taken was free
    rw [hi] at hc
    rw [(ht.eq_of_addr hc hb haddr).2, hfree] at hcf
    exact Bool.noConfusion hcf
  | mapped hvalid hlarge => exact Lists.mem_insert.mpr (Or.inr hc)

/-- A pointer that is returned was not in use. -/
theorem Ready.notMem_inUse (h : Ready r s P) (hserved : s.Served os size)
    (halloc : Allocates P os size ret P') : ret ∉ P.inUse := by
  cases halloc with
  | refused => exact Lists.zero_notMem_inUse
  | @pool index n b hn hb hfree hfits =>
    rintro ⟨l, c, hc, hcf, hcb⟩
    rw [(h.repr.eq_of_addr hc hb (Nat.add_right_cancel hcb)).2, hfree] at hcf
    exact Bool.noConfusion hcf
  | mapped hvalid hlarge =>
    have hok := hserved.mmap hvalid hlarge
    rw [h.firstMalloc, if_neg Bool.noConfusion] at hok
    rintro ⟨l, c, hc, hcf, hcb⟩
    -- a new mapping lies apart from all blocks
    have haddr : c.addr = os.mmapped := Nat.add_right_cancel hcb
    have hsep := h.separate_mmapped hok hc
    have hlen := h.metadataSize_lt hc
    omega

/-- The blocks in use after `sfree` of a pool block: all but that one. -/
theorem Lists.Tiling.free_sameInUse {base : ℕ} (h : P.Tiling base) (hno : P.NoFreeBuddies)
    (hb : b ∈ P (.order k)) (hwalk : P.CleanWalk maxOrder b.addr b.size)
    (hP : P.free (.order k) b = some P') : (P.mark (.order k) b.addr true).SameInUse P' := by
  obtain ⟨hk, hsize⟩ := h.sized k b hb
  set res : Blk := { b with isFree := true } with hresdef
  have hres : res ∈ P.mark (.order k) b.addr true (.order k) :=
    mem_mark.mpr ⟨b, hb, (if_pos ⟨rfl, rfl⟩).symm⟩
  have hold : ∀ c ∈ (P.mark (.order k) b.addr true).pool, c ≠ res → c ∈ P.pool := by
    intro c hc hne
    rw [h.pool_mark hb] at hc
    exact (hc.resolve_right hne).1
  rw [Lists.free] at hP
  split_ifs at hP with hlast
  · cases hP
    exact .refl
  · have hk' : k < maxOrder := by
      refine lt_of_le_of_ne hk fun heq => hlast ?_
      rw [hsize, heq]
      rfl
    -- the only new free block is the one that is freed
    obtain ⟨Q, heq, -, -, hsame⟩ := (h.mark hb true).merge hres hk' rfl hold
      (fun c hc d hd hcd => by
        by_contra hnot
        rw [not_or] at hnot
        exact hno c (hold c hc hnot.1) d (hold d hd hnot.2) hcd)
      hwalk (Nat.le_add_left _ _)
    rw [hP] at heq
    cases heq
    exact hsame

end Blocks

/-! ### Each call -/

/-- What `smalloc` leaves in `heap`, for the client of `t`: what it holds is unchanged, and a
pointer that is returned is new and has room for `size` bytes. -/
structure Granted (t : Session) (heap : Heap) (ret size : ℕ) (r : ℕ × ℕ) (P : Lists) : Prop where
  ready : Ready r heap P
  kept : ∀ q ∈ t.live, heap.content q = t.heap.content q
  block : ∀ q ∈ t.live, ∃ l, ∃ c ∈ P l, c.payload = q
  fresh : ret ∉ t.live
  room : ret ≠ 0 → ∃ i, ∃ b ∈ P i, b.payload = ret ∧ metadataSize + size ≤ b.size

section Calls

variable {t u : Session} {es : List Event} {r : ℕ × ℕ} {P : Lists} {os : Answers}
  {size ret p : ℕ} {heap : Heap}

theorem Holds.granted (h : Holds t r P) (hserved : t.heap.Served os size)
    (hexec : t.heap.smalloc os size = some (ret, heap)) : ∃ P', Granted t heap ret size r P' := by
  have hready := h.ready
  obtain ⟨heap', heq, hready', hsame⟩ := hready.smalloc_payloads hserved
  have halloc := smalloc_allocates P os size
  rw [hexec] at heq
  cases heq
  -- what is in use stays in its list
  have hmem : ∀ l, ∀ c ∈ P l, c.isFree = false → c ∈ (P.smalloc os size).2 l :=
    fun l c hc hcf => halloc.mem_of_inUse hready.tiling hc hcf
  refine ⟨_, hready', fun q hq => ?_, fun q hq => ?_, ?_, halloc.exists_block hready.tiling⟩
  all_goals rw [h.live] at *
  · obtain ⟨l, c, hc, hcf, rfl⟩ := hq
    exact hready.content_congr hready' hc (hmem l c hc hcf) (hsame l c hc hcf)
  · obtain ⟨l, c, hc, hcf, rfl⟩ := hq
    exact ⟨l, c, hmem l c hc hcf, rfl⟩
  · exact hready.notMem_inUse hserved halloc

/-- `smalloc`, the first time or later. -/
theorem Inv.granted (h : Inv es t) (hserved : t.heap.Served os size)
    (hexec : t.heap.smalloc os size = some (ret, heap)) : ∃ r P, Granted t heap ret size r P := by
  obtain ⟨hfresh, hlive, -⟩ | ⟨r, P, hholds⟩ := h
  · obtain ⟨heap', heq, hready⟩ := hfresh.smalloc hserved
    rw [hexec] at heq
    cases heq
    -- before the first call no pointer is live
    have hnone : ∀ q, q ∉ t.live := fun q => hlive ▸ Set.notMem_empty q
    exact ⟨_, _, hready, fun q hq => absurd hq (hnone q), fun q hq => absurd hq (hnone q), hnone _,
      (smalloc_allocates _ os size).exists_block (Lists.tiling_poolLists (poolBase_dvd _))⟩
  · exact ⟨r, hholds.granted hserved hexec⟩

/-- `scalloc` refuses by itself, or it clears what `smalloc` has returned. -/
theorem Heap.scalloc_cases {s : Heap} {num : ℕ}
    (hexec : s.scalloc os num size = some (ret, heap)) :
    (ret = 0 ∧ heap = s) ∨
      ∃ heap₁, (Call.scalloc os num size).request = some (os, size * num % wordLimit) ∧
        s.smalloc os (size * num % wordLimit) = some (ret, heap₁) ∧
        heap = if ret = 0 then heap₁
          else heap₁.setMem (heap₁.mem.fill ret (size * num % wordLimit) 0) := by
  rw [Heap.scalloc] at hexec
  by_cases h0 : size = 0 ∨ num = 0
  · rw [if_pos h0] at hexec
    cases hexec
    exact Or.inl ⟨rfl, rfl⟩
  rw [if_neg h0] at hexec
  by_cases hbig : 100000000 < size * num % wordLimit
  · simp only [if_pos hbig] at hexec
    cases hexec
    exact Or.inl ⟨rfl, rfl⟩
  simp only [if_neg hbig] at hexec
  obtain ⟨⟨ret₁, heap₁⟩, heq, hrest⟩ := Option.bind_eq_some_iff.mp hexec
  -- neither of the two checks of `scalloc` has refused
  have hrequest : (Call.scalloc os num size).request = some (os, size * num % wordLimit) := by
    rw [Call.request, if_neg]
    rw [not_or] at h0 ⊢
    exact ⟨h0.1, not_or.mpr ⟨h0.2, hbig⟩⟩
  by_cases hret : ret₁ = 0
  · simp only [hret, if_true] at hrest
    cases hrest
    exact Or.inr ⟨heap, hrequest, hret ▸ heq, (if_pos rfl).symm⟩
  · simp only [hret, if_false] at hrest
    cases hrest
    exact Or.inr ⟨heap₁, hrequest, heq, (if_neg hret).symm⟩

/-- `sfree` writes headers only: the other pointers keep their contents. -/
theorem Holds.sfree_kept (h : Holds t r P) (hp : p ∈ t.live) (hclean : t.Clean (.call (.sfree p) 0))
    (hexec : t.heap.sfree p = some heap) :
    ∀ q ∈ t.live, q ≠ p → heap.content q = t.heap.content q := by
  have hready := h.ready
  rw [h.live] at hp ⊢
  obtain ⟨i, b, hb, hbf, rfl⟩ := hp
  rintro _ ⟨l, c, hc, hcf, rfl⟩ hne
  have hca : c.addr ≠ b.addr := fun heq => hne (congrArg (· + metadataSize) heq)
  cases i with
  | mapped =>
    obtain ⟨heap₁, heq₁, -, -, -, hbytes⟩ := hready.repr.sfree_mapped hb hbf
    obtain ⟨heap₂, heq₂, hready'⟩ := hready.sfree_mapped hb
    rw [hexec] at heq₁ heq₂
    cases heq₁
    cases heq₂
    -- the other blocks stay in their lists, with their bytes
    have hc' : c ∈ P.remove .mapped b.addr l := Lists.mem_remove.mpr ⟨hc, fun _ => hca⟩
    exact hready.content_congr hready' hc hc' fun n hn =>
      hbytes _ (hready.addrs_apart_payload hc hn)
  | order k =>
    -- what is said of the heap, said of the lists
    have hwalk : P.CleanWalk maxOrder b.addr b.size := by
      have hheap := hclean b.payload_ne_zero
      rw [Blk.payload_sub, (hready.repr.node _ b hb).size] at hheap
      exact hheap.lists hready.repr
    have hapart : ∀ c ∈ P .mapped, c.addr ≠ b.addr := fun c hc heq =>
      Slot.noConfusion (hready.repr.once _ _ c hc b hb heq)
    obtain ⟨P', hfree, ht, -, hmapped, -⟩ := hready.tiling.free h.noFreeBuddies hb hapart hwalk
    obtain ⟨heap₁, heq₁, hrepr, hframe⟩ := hready.repr.sfree_order hready.tiling.sized hb hbf hfree
    rw [hexec] at heq₁
    cases heq₁
    -- the block is in use before the merge, and merging keeps it
    have hmark : c ∈ P.mark (.order k) b.addr true l :=
      Lists.mem_mark.mpr ⟨c, hc, (if_neg fun hcond => hca hcond.2).symm⟩
    have hc' : c ∈ P' l := ((hready.tiling.free_sameInUse h.noFreeBuddies hb hwalk hfree).2 l c
      hcf).mpr hmark
    exact hready.content_congr (hready.of_frame hframe hrepr ht hmapped) hc hc' fun n hn =>
      hframe.bytes _ (hready.addrs_apart_payload hc hn)

/-- The contents after a call that enters `smalloc`. -/
theorem Granted.contents_eq (h : Granted t heap ret size r P) :
    Session.contents ⟨heap, insert ret t.live⟩
      = Function.update t.contents ret (some (heap.content ret)) :=
  Session.contents_insert rfl fun q hq _ => h.kept q hq

theorem Granted.le_length (h : Granted t heap ret size r P) (hret : ret ≠ 0) :
    size ≤ (heap.content ret).length := by
  obtain ⟨i, b, hb, rfl, hroom⟩ := h.room hret
  rw [h.ready.content_eq hb, Mem.length_bytes]
  omega

/-- What has been cleared, for the client of `t`. -/
theorem Granted.fill (h : Granted t heap ret size r P) (hret : ret ≠ 0) :
    Session.contents ⟨heap.setMem (heap.mem.fill ret size 0), insert ret t.live⟩
        = Function.update t.contents ret
          (some ((heap.setMem (heap.mem.fill ret size 0)).content ret)) ∧
      ((heap.setMem (heap.mem.fill ret size 0)).content ret).take size
        = List.replicate size 0 := by
  -- only bytes of the payload are cleared
  obtain ⟨i, b, hb, rfl, hroom⟩ := h.room hret
  have hout : ∀ x, x < b.payload ∨ b.addr + b.size ≤ x →
      heap.mem.fill b.payload size 0 x = heap.mem x := by
    intro x hx
    apply Mem.fill_apply_out
    rw [Blk.payload] at hx ⊢
    omega
  constructor
  · refine Session.contents_insert rfl fun q hq hne => ?_
    obtain ⟨l, c, hc, rfl⟩ := h.block q hq
    exact (h.ready.content_of_payload hb hc hne hout).trans (h.kept _ hq)
  · rw [(h.ready.of_payload hb hout).content_eq hb]
    show (Mem.bytes (heap.mem.fill b.payload size 0) _ _).take size = _
    rw [Mem.take_bytes (by omega), Mem.bytes_fill le_rfl]

theorem Inv.zero_notMem (h : Inv es t) : 0 ∉ t.live := by
  obtain ⟨-, hlive, -⟩ | ⟨r, P, hholds⟩ := h
  · rw [hlive]
    exact Set.notMem_empty 0
  · rw [hholds.live]
    exact Lists.zero_notMem_inUse

/-- A session with a live pointer has a pool. -/
theorem Inv.holds_of_mem (h : Inv es t) (hp : p ∈ t.live) : ∃ r P, Holds t r P := by
  obtain ⟨-, hlive, -⟩ | hholds := h
  · rw [hlive] at hp
    exact absurd hp (Set.notMem_empty p)
  · exact hholds

/-- A call that was refused. -/
theorem Granted.refused (h : Granted t heap 0 size r P) {c : Call} (hc : ∀ p, c ≠ .sfree p) :
    AbsStep t.contents (.call c 0) (Session.contents ⟨heap, t.live⟩) := by
  rw [Session.contents_congr (t := t) (u := ⟨heap, t.live⟩) rfl h.kept]
  exact .refused hc

/-- A client writing to a payload. -/
theorem Holds.refines_write {i : ℕ} (h : Holds t r P) (hp : p ∈ t.live)
    (hi : i < t.heap.payloadSize p) (v : UInt8) :
    AbsStep t.contents (.write p i v)
      (Session.contents ⟨t.heap.setMem (Function.update t.heap.mem (p + i) v), t.live⟩) := by
  have hready := h.ready
  obtain ⟨l, b, hb, hbf, rfl⟩ := (h.live ▸ hp : p ∈ P.inUse)
  have hi' := hi
  rw [hready.payloadSize_eq hb] at hi'
  have hout : ∀ x, x < b.payload ∨ b.addr + b.size ≤ x →
      Function.update t.heap.mem (b.payload + i) v x = t.heap.mem x := by
    intro x hx
    have hne : x ≠ b.payload + i := by
      rw [Blk.payload] at hx ⊢
      omega
    exact Function.update_of_ne hne _ _
  -- the payload itself changes in one byte, …
  have hcontent : (t.heap.setMem (Function.update t.heap.mem (b.payload + i) v)).content b.payload
      = (t.heap.content b.payload).set i v := by
    rw [(hready.of_payload hb hout).content_eq hb, hready.content_eq hb]
    exact Mem.bytes_update
  -- … and the others do not change
  have hcontents : Session.contents
      ⟨t.heap.setMem (Function.update t.heap.mem (b.payload + i) v), t.live⟩
      = Function.update t.contents b.payload (some ((t.heap.content b.payload).set i v)) := by
    rw [← hcontent]
    refine Session.contents_insert (Set.insert_eq_of_mem hp).symm fun q hq hne => ?_
    rw [h.live] at hq
    obtain ⟨l', c, hc, -, rfl⟩ := hq
    exact hready.content_of_payload hb hc hne hout
  rw [hcontents]
  refine .write (Session.contents_of_mem hp) ?_
  rw [Heap.content, Mem.length_bytes]
  exact hi

/-- **Every event** on a clean walk is one that the abstract heap allows. -/
theorem Inv.refines {e : Event} (h : Inv es t) (hclean : t.Clean e) (hstep : Step t e u) :
    AbsStep t.contents e u.contents := by
  cases hstep with
  | @call c ret heap harg hserved hexec =>
    cases c with
    | smalloc os size =>
      obtain ⟨r, P, hgrant⟩ := h.granted (hserved os size rfl) hexec
      by_cases hret : ret = 0
      · subst hret
        exact hgrant.refused fun p => Call.noConfusion
      · rw [liveAfter, if_neg hret, hgrant.contents_eq]
        exact .smalloc hret (Session.contents_of_notMem hgrant.fresh) (hgrant.le_length hret)
    | scalloc os num size =>
      obtain ⟨rfl, rfl⟩ | ⟨heap₁, hrequest, hsmalloc, rfl⟩ := Heap.scalloc_cases hexec
      · exact .refused fun p => Call.noConfusion
      · obtain ⟨r, P, hgrant⟩ := h.granted (hserved _ _ hrequest) hsmalloc
        by_cases hret : ret = 0
        · subst hret
          exact hgrant.refused fun p => Call.noConfusion
        · obtain ⟨hcontents, hzero⟩ := hgrant.fill hret
          rw [liveAfter, if_neg hret, if_neg hret, hcontents]
          refine .scalloc hret (Session.contents_of_notMem hgrant.fresh) fun hlt => ?_
          rw [Nat.mul_comm size num, Nat.mod_eq_of_lt hlt] at hzero ⊢
          exact hzero
    | sfree p =>
      obtain ⟨heap', hfree, heq⟩ := Option.map_eq_some_iff.mp hexec
      cases heq
      obtain rfl | hp := harg
      · -- `sfree(NULL)`, where `NULL` is not live
        have hnull : t.heap.sfree 0 = some t.heap := if_pos rfl
        obtain rfl : t.heap = heap := Option.some.inj (hnull.symm.trans hfree)
        rw [Session.contents_congr (t := t) (u := ⟨t.heap, liveAfter t.live 0 (.sfree 0)⟩)
          (Set.sdiff_singleton_eq_self h.zero_notMem) fun _ _ => rfl]
        exact .sfreeNull
      · obtain ⟨r, P, hholds⟩ := h.holds_of_mem hp
        rw [Session.contents_sdiff (t := t) (u := ⟨heap, liveAfter t.live 0 (.sfree p)⟩) rfl
          (hholds.sfree_kept hp hclean hfree)]
        exact .sfree (Session.contents_of_mem hp)
  | @write p i v hp hi =>
    obtain ⟨r, P, hholds⟩ := h.holds_of_mem hp
    exact hholds.refines_write hp hi v

end Calls

/-! ### Every run -/

/-- **The contents refine the abstract heap**, in every run from program start in which no `sfree`
meets a free header of a smaller block where it looks for a buddy: event by event, an allocation
adds one pointer that was not held, with room for the request and zeroed if `scalloc` was called; a
free removes one; a write changes one byte of one payload; and no call changes anything else that
the client can read. -/
theorem contents_refine {s t : Session} {es : List Event} (hs : client.init s)
    (h : (client.restrict Session.Clean).Run s es t) :
    abstractHeap.Run (fun _ => none) es t.contents := by
  have hstart : s.contents = fun _ => none :=
    funext fun p => Session.contents_of_notMem (hs.2 ▸ Set.notMem_empty p)
  have hinit : Inv [] s := Or.inl ⟨hs.1, hs.2, fun e he => absurd he List.not_mem_nil⟩
  have hstep : ∀ (v : Session) (e : Event) (w : Session) (A : AbsHeap),
      ((∃ es, Inv es v) ∧ A = v.contents) → (client.restrict Session.Clean).step v e w →
      ∃ B, abstractHeap.step A e B ∧ ((∃ es, Inv es w) ∧ B = w.contents) := by
    rintro v e w _ ⟨⟨es, hinv⟩, rfl⟩ ⟨hclean, hst⟩
    exact ⟨_, hinv.refines hclean hst, ⟨_, hinv.step hclean hst⟩, rfl⟩
  obtain ⟨A, hrun, -, rfl⟩ := h.simulate
    (R := fun v A => (∃ es, Inv es v) ∧ A = v.contents) hstep ⟨⟨[], hinit⟩, rfl⟩
  rwa [hstart] at hrun

/-- The theorem at a run that splits, maps, gives the mapping back and merges. -/
theorem contents_refine_sample :
    ∃ s es t, client.init s ∧ (client.restrict Session.Clean).Run s es t ∧ es.length = 4 ∧
      abstractHeap.Run (fun _ => none) es t.contents := by
  obtain ⟨s, es, t, hs, hrun, hlength, -⟩ := exists_merged_run
  exact ⟨s, es, t, hs, hrun, hlength, contents_refine hs hrun⟩

end OsHomework.Malloc3
