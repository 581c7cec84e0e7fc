import OsHomework.Lib.ByteMem
import OsHomework.Lib.LinkedList
import OsHomework.Lib.Transition
import Mathlib.Data.Set.Insert

/-!
# `malloc_2`: a first-fit allocator over one list of blocks

The allocator of `OS_HW4_234123/malloc_2.cpp`. A block is a `MallocMetadata` header of 32 bytes with
its payload behind it; every block ever obtained from `sbrk` stays in the list that
`globalPointersList` starts, in the order in which they were obtained. Allocation takes the first
free block that is large enough, or grows the heap; nothing is ever split, merged or given back.

The headers live in the same bytes as the payloads (`Heap.mem`), so that a write that strays out of
a payload is a write the model can see. A pointer is a natural number and `0` is `NULL`; the five
counters are `size_t`, kept below `2 ^ 64`. Each loop over the list may run for `2 ^ 64` steps, more
than there are addresses: a result `none` is a call that does not return.

The memory is total, so that no access faults in `srealloc` itself; the bytes that its copy reads
behind the old payload are left open. `sreallocGuarded` is the same call on a machine where the
memory ends at the program break.
-/

namespace OsHomework.Malloc2

/-- The fields of `MallocMetadata`. -/
inductive Field
  | size | is_free | next | prev
  deriving DecidableEq

/-- `MallocMetadata` as the x86-64 ABI lays it out. -/
def metadata : Layout Field where
  size := 32
  off
    | .size => 0
    | .is_free => 8
    | .next => 16
    | .prev => 24
  width
    | .is_free => 1
    | _ => 8
  fits i := by cases i <;> decide
  disjoint i j h := by cases i <;> cases j <;> first | exact absurd rfl h | decide

/-- `sizeof(MallocMetadata)`. -/
def metadataSize : ℕ := 32

/-- `size > 100000000` is refused. -/
def maxRequest : ℕ := 100000000

/-- The allocator's globals, the memory and the program break. -/
structure Heap where
  mem : Mem
  /-- The program break. -/
  brk : ℕ
  globalPointersList : ℕ
  num_of_free_blocks : ℕ
  num_of_free_bytes : ℕ
  num_of_allocated_blocks : ℕ
  num_of_allocated_bytes : ℕ
  num_of_meta_data_bytes : ℕ

namespace Heap

/-! ### Header access -/

def size (s : Heap) (p : ℕ) : ℕ := metadata.get .size s.mem p

def isFree (s : Heap) (p : ℕ) : Bool := metadata.get .is_free s.mem p ≠ 0

def next (s : Heap) (p : ℕ) : ℕ := metadata.get .next s.mem p

/-- Assign one field of the header at `p`. -/
def assign (s : Heap) (f : Field) (p v : ℕ) : Heap := { s with mem := metadata.set f s.mem p v }

/-! ### The system call -/

/-- `sbrk(n)`. The outcome `none` is a refusal. With `some gap`, others have raised the break by
`gap` since the allocator last looked; the call returns that break and raises it by `n`, unless that
leaves the address space. The result `none` stands for `(void*)(-1)`. -/
def sbrk (s : Heap) (outcome : Option ℕ) (n : ℕ) : Option (ℕ × Heap) :=
  match outcome with
  | none => none
  | some gap =>
    if s.brk + gap + n < wordLimit then
      some (s.brk + gap, { s with brk := s.brk + gap + n })
    else none

/-! ### The allocator's functions -/

/-- `memcpy(dst, oldp, n)` for an old payload of `old` bytes. What the copy reads past the old
payload is not the client's: those bytes are the parameter `beyond`. -/
def memcpy (s : Heap) (dst oldp n old : ℕ) (beyond : ℕ → UInt8) : Heap :=
  { s with mem := s.mem.blit dst n fun i => if i < old then s.mem (oldp + i) else beyond i }

def memset (s : Heap) (dst n : ℕ) : Heap := { s with mem := s.mem.fill dst n 0 }

def smalloc (s : Heap) (outcome : Option ℕ) (size : ℕ) : Option (ℕ × Heap) :=
  if size = 0 then some (0, s)
  else if maxRequest < size then some (0, s)
  else do
    -- the first block that is large enough and free
    let (_, tempptr) ← scan s.next (fun p => decide (size ≤ s.size p) && s.isFree p) wordLimit 0
      s.globalPointersList
    if tempptr ≠ 0 then
      let s := { s with num_of_free_blocks := (s.num_of_free_blocks + wordLimit - 1) % wordLimit }
      let s := { s with
        num_of_free_bytes := (s.num_of_free_bytes + wordLimit - s.size tempptr) % wordLimit }
      let s := s.assign .is_free tempptr 0
      return (tempptr + metadataSize, s)
    match s.sbrk outcome (size + metadataSize) with
    | none => return (0, s)
    | some (newBlock, s) =>
      let s := { s with
        num_of_meta_data_bytes := (s.num_of_meta_data_bytes + metadataSize) % wordLimit }
      let s := { s with num_of_allocated_bytes := (s.num_of_allocated_bytes + size) % wordLimit }
      let s := { s with num_of_allocated_blocks := (s.num_of_allocated_blocks + 1) % wordLimit }
      let s := s.assign .is_free newBlock 0
      let s := s.assign .next newBlock 0
      let s := s.assign .size newBlock size
      let s ← (if s.globalPointersList = 0 then
          let s := { s with globalPointersList := newBlock }
          let s := s.assign .prev newBlock 0
          some (s.assign .next newBlock 0)
        else do
          -- `while (tempptr->next != NULL)` leaves with the node before the null link
          let (tempptr, _) ← scan s.next (fun _ => false) wordLimit 0 s.globalPointersList
          let s := s.assign .prev newBlock tempptr
          let s := s.assign .next tempptr newBlock
          some (s.assign .next newBlock 0))
      return (newBlock + metadataSize, s)

def scalloc (s : Heap) (outcome : Option ℕ) (num size : ℕ) : Option (ℕ × Heap) :=
  -- `size*num` is computed in `size_t`
  let total := size * num % wordLimit
  if size = 0 ∨ num = 0 then some (0, s)
  else if maxRequest < total then some (0, s)
  else do
    let (_, tempptr) ← scan s.next (fun p => decide (total ≤ s.size p) && s.isFree p) wordLimit 0
      s.globalPointersList
    if tempptr ≠ 0 then
      let s := { s with num_of_free_blocks := (s.num_of_free_blocks + wordLimit - 1) % wordLimit }
      let s := { s with
        num_of_free_bytes := (s.num_of_free_bytes + wordLimit - s.size tempptr) % wordLimit }
      let s := s.assign .is_free tempptr 0
      return (tempptr + metadataSize, s.memset (tempptr + metadataSize) total)
    match s.sbrk outcome (total + metadataSize) with
    | none => return (0, s)
    | some (newBlock, s) =>
      let s := { s with num_of_allocated_blocks := (s.num_of_allocated_blocks + 1) % wordLimit }
      let s := { s with num_of_allocated_bytes := (s.num_of_allocated_bytes + total) % wordLimit }
      let s := { s with
        num_of_meta_data_bytes := (s.num_of_meta_data_bytes + metadataSize) % wordLimit }
      -- the link is left as it is until the block is in the list
      let s := s.assign .size newBlock total
      let s := s.assign .is_free newBlock 0
      let s ← (if s.globalPointersList = 0 then
          let s := { s with globalPointersList := newBlock }
          let s := s.assign .prev newBlock 0
          some (s.assign .next newBlock 0)
        else do
          let (tempptr, _) ← scan s.next (fun _ => false) wordLimit 0 s.globalPointersList
          let s := s.assign .prev newBlock tempptr
          let s := s.assign .next tempptr newBlock
          some (s.assign .next newBlock 0))
      return (newBlock + metadataSize, s.memset (newBlock + metadataSize) total)

def sfree (s : Heap) (p : ℕ) : Heap :=
  if p = 0 then s
  else
    let meantTOfREE := p - metadataSize
    -- a second `sfree` of the block counts nothing
    if s.isFree meantTOfREE then s
    else
      { s.assign .is_free meantTOfREE 1 with
        num_of_free_blocks := (s.num_of_free_blocks + 1) % wordLimit
        num_of_free_bytes := (s.num_of_free_bytes + s.size meantTOfREE) % wordLimit }

def srealloc (s : Heap) (outcome : Option ℕ) (beyond : ℕ → UInt8) (oldp size : ℕ) :
    Option (ℕ × Heap) :=
  if oldp = 0 then s.smalloc outcome size
  else if size = 0 then some (0, s)
  else if maxRequest < size then some (0, s)
  else
    let old := s.size (oldp - metadataSize)
    if size ≤ old then some (oldp, s)
    else do
      -- the old block is still in use during the search
      let (_, tempptr) ← scan s.next (fun p => decide (size ≤ s.size p) && s.isFree p) wordLimit 0
        s.globalPointersList
      if tempptr ≠ 0 then
        let s := { s with
          num_of_free_blocks := (s.num_of_free_blocks + wordLimit - 1) % wordLimit }
        let s := { s with
          num_of_free_bytes := (s.num_of_free_bytes + wordLimit - s.size tempptr) % wordLimit }
        let s := s.assign .is_free tempptr 0
        -- as many bytes as are asked for, which is more than the old block has
        let s := s.memcpy (tempptr + metadataSize) oldp size old beyond
        return (tempptr + metadataSize, s.sfree oldp)
      match s.sbrk outcome (size + metadataSize) with
      | none => return (0, s)
      | some (newBlock, s) =>
        let s := { s with num_of_allocated_blocks := (s.num_of_allocated_blocks + 1) % wordLimit }
        let s := { s with num_of_allocated_bytes := (s.num_of_allocated_bytes + size) % wordLimit }
        let s := { s with
          num_of_meta_data_bytes := (s.num_of_meta_data_bytes + metadataSize) % wordLimit }
        let s := s.assign .size newBlock size
        let s := s.assign .is_free newBlock 0
        let s ← (if s.globalPointersList = 0 then
            let s := { s with globalPointersList := newBlock }
            let s := s.assign .prev newBlock 0
            some (s.assign .next newBlock 0)
          else do
            let (tempptr, _) ← scan s.next (fun _ => false) wordLimit 0 s.globalPointersList
            let s := s.assign .prev newBlock tempptr
            let s := s.assign .next tempptr newBlock
            some (s.assign .next newBlock 0))
        let s := s.memcpy (newBlock + metadataSize) oldp size old beyond
        return (newBlock + metadataSize, s.sfree oldp)

/-! ### What the three copies have in common -/

/-- The search: the first free block that holds `size` bytes, or `NULL`. -/
def findFree (s : Heap) (size : ℕ) : Option ℕ :=
  (scan s.next (fun p => decide (size ≤ s.size p) && s.isFree p) wordLimit 0
    s.globalPointersList).map Prod.snd

/-- Take the block at `tempptr` out of the free ones. -/
def reuse (s : Heap) (tempptr : ℕ) : Heap :=
  { s.assign .is_free tempptr 0 with
    num_of_free_blocks := (s.num_of_free_blocks + wordLimit - 1) % wordLimit
    num_of_free_bytes := (s.num_of_free_bytes + wordLimit - s.size tempptr) % wordLimit }

/-- Count a new block of `size` bytes. -/
def countNew (s : Heap) (size : ℕ) : Heap :=
  { s with
    num_of_meta_data_bytes := (s.num_of_meta_data_bytes + metadataSize) % wordLimit
    num_of_allocated_bytes := (s.num_of_allocated_bytes + size) % wordLimit
    num_of_allocated_blocks := (s.num_of_allocated_blocks + 1) % wordLimit }

/-- Put `newBlock` at the end of the list. -/
def link (s : Heap) (newBlock : ℕ) : Option Heap :=
  if s.globalPointersList = 0 then
    some ((({ s with globalPointersList := newBlock } : Heap).assign .prev newBlock 0).assign
      .next newBlock 0)
  else do
    let (tempptr, _) ← scan s.next (fun _ => false) wordLimit 0 s.globalPointersList
    some (((s.assign .prev newBlock tempptr).assign .next tempptr newBlock).assign .next newBlock 0)

/-- One allocation path: reuse a free block or grow the heap. `init` writes the size and the flag of
a new header; `finish` is what the function does to the payload it is about to return. -/
def allocate (s : Heap) (outcome : Option ℕ) (size : ℕ) (init : ℕ → Heap → Heap)
    (finish : ℕ → Heap → Heap) : Option (ℕ × Heap) := do
  let tempptr ← s.findFree size
  -- first fit: the break is not touched
  if tempptr ≠ 0 then
    return (tempptr + metadataSize, finish (tempptr + metadataSize) (s.reuse tempptr))
  match s.sbrk outcome (size + metadataSize) with
  | none => return (0, s)
  | some (newBlock, s) =>
    -- a block of its own for every request that no free block holds
    let s ← (init newBlock (s.countNew size)).link newBlock
    return (newBlock + metadataSize, finish (newBlock + metadataSize) s)

/-- The header as `scalloc` and `srealloc` write it before linking. -/
def initBlock (size newBlock : ℕ) (s : Heap) : Heap :=
  (s.assign .size newBlock size).assign .is_free newBlock 0

/-- The header as `smalloc` writes it before linking, with the link cleared as well. -/
def initCleared (size newBlock : ℕ) (s : Heap) : Heap :=
  ((s.assign .is_free newBlock 0).assign .next newBlock 0).assign .size newBlock size

section

variable (s : Heap) (outcome : Option ℕ)

/-- **The path of `smalloc`**, which leaves the payload alone. -/
theorem smalloc_eq_allocate (size : ℕ) :
    s.smalloc outcome size =
      if size = 0 then some (0, s)
      else if maxRequest < size then some (0, s)
      else s.allocate outcome size (initCleared size) fun _ t => t := by
  unfold smalloc allocate findFree
  split_ifs
  · rfl
  · rfl
  · cases scan s.next (fun p => decide (size ≤ s.size p) && s.isFree p) wordLimit 0
        s.globalPointersList with
    | none => rfl
    | some x =>
      simp only [Option.bind_eq_bind, Option.bind_some, Option.map_some]
      split_ifs
      · -- the block is taken with the same writes
        simp only [reuse, assign, Heap.size]
      · cases s.sbrk outcome (size + metadataSize) with
        | none => rfl
        | some y =>
          -- the counters do not depend on the order they are raised in
          simp only [link, countNew, initCleared, assign]
          rfl

/-- **The path of `scalloc`**, which clears the payload. -/
theorem scalloc_eq_allocate (num size : ℕ) :
    s.scalloc outcome num size =
      if size = 0 ∨ num = 0 then some (0, s)
      else if maxRequest < size * num % wordLimit then some (0, s)
      else s.allocate outcome (size * num % wordLimit) (initBlock (size * num % wordLimit))
        fun p t => t.memset p (size * num % wordLimit) := by
  unfold scalloc allocate findFree
  dsimp only
  split_ifs
  · rfl
  · rfl
  · cases scan s.next (fun p => decide (size * num % wordLimit ≤ s.size p) && s.isFree p) wordLimit
        0 s.globalPointersList with
    | none => rfl
    | some x =>
      simp only [Option.bind_eq_bind, Option.bind_some, Option.map_some]
      split_ifs
      · -- the block is taken with the same writes
        simp only [reuse, assign, Heap.size]
      · cases s.sbrk outcome (size * num % wordLimit + metadataSize) with
        | none => rfl
        | some y =>
          -- the counters do not depend on the order they are raised in
          simp only [link, countNew, initBlock, assign]
          rfl

/-- **The path of `srealloc`**, which copies into the payload and frees the old block. -/
theorem srealloc_eq_allocate (beyond : ℕ → UInt8) (oldp size : ℕ) :
    s.srealloc outcome beyond oldp size =
      if oldp = 0 then s.smalloc outcome size
      else if size = 0 then some (0, s)
      else if maxRequest < size then some (0, s)
      else if size ≤ s.size (oldp - metadataSize) then some (oldp, s)
      else s.allocate outcome size (initBlock size) fun p t =>
        (t.memcpy p oldp size (s.size (oldp - metadataSize)) beyond).sfree oldp := by
  unfold srealloc allocate findFree
  dsimp only
  split_ifs
  · rfl
  · rfl
  · rfl
  · rfl
  · cases scan s.next (fun p => decide (size ≤ s.size p) && s.isFree p) wordLimit 0
        s.globalPointersList with
    | none => rfl
    | some x =>
      simp only [Option.bind_eq_bind, Option.bind_some, Option.map_some]
      split_ifs
      · -- the block is taken with the same writes
        simp only [reuse, assign, Heap.size]
      · cases s.sbrk outcome (size + metadataSize) with
        | none => rfl
        | some y =>
          -- the counters do not depend on the order they are raised in
          simp only [link, countNew, initBlock, assign]
          rfl

end

/-- `srealloc`, with the `memcpy` it makes, if it makes one: to the pointer that it returns, unless
that is `NULL`. -/
def sreallocTraced (s : Heap) (outcome : Option ℕ) (beyond : ℕ → UInt8) (oldp size : ℕ) :
    Option (Option Copy × ℕ × Heap) :=
  if oldp = 0 then (s.smalloc outcome size).map fun x => (none, x)
  else if size = 0 then some (none, 0, s)
  else if maxRequest < size then some (none, 0, s)
  else
    let old := s.size (oldp - metadataSize)
    if size ≤ old then some (none, oldp, s)
    else (s.allocate outcome size (initBlock size) fun p s =>
      (s.memcpy p oldp size old beyond).sfree oldp).map fun x =>
        (if x.1 = 0 then none else some ⟨x.1, oldp, size⟩, x)

/-- `srealloc` where a read from above the program break faults, since that memory is not the
process's: a call whose `memcpy` reads from there has no result. -/
def sreallocGuarded (s : Heap) (outcome : Option ℕ) (beyond : ℕ → UInt8) (oldp size : ℕ) :
    Option (ℕ × Heap) := do
  let (copy, ret, t) ← s.sreallocTraced outcome beyond oldp size
  if ∀ c ∈ copy, c.src + c.len ≤ t.brk then some (ret, t) else none

def _num_free_blocks (s : Heap) : ℕ := s.num_of_free_blocks

def _num_free_bytes (s : Heap) : ℕ := s.num_of_free_bytes

def _num_allocated_blocks (s : Heap) : ℕ := s.num_of_allocated_blocks

def _num_allocated_bytes (s : Heap) : ℕ := s.num_of_allocated_bytes

def _num_meta_data_bytes (s : Heap) : ℕ := s.num_of_meta_data_bytes

/-- The globals as the program starts; the memory above the break may hold anything. -/
structure Fresh (s : Heap) : Prop where
  brk_pos : 0 < s.brk
  brk_lt : s.brk < wordLimit
  list : s.globalPointersList = 0
  free_blocks : s.num_of_free_blocks = 0
  free_bytes : s.num_of_free_bytes = 0
  allocated_blocks : s.num_of_allocated_blocks = 0
  allocated_bytes : s.num_of_allocated_bytes = 0
  meta_data_bytes : s.num_of_meta_data_bytes = 0

end Heap

/-- A call a client makes, with what the system and the stray reads contribute to it. -/
inductive Call
  | smalloc (outcome : Option ℕ) (size : ℕ)
  | scalloc (outcome : Option ℕ) (num size : ℕ)
  | sfree (p : ℕ)
  | srealloc (outcome : Option ℕ) (beyond : ℕ → UInt8) (oldp size : ℕ)

namespace Call

/-- The pointer a call hands back to the allocator, if any. -/
def arg : Call → ℕ
  | smalloc .. => 0
  | scalloc .. => 0
  | sfree p => p
  | srealloc _ _ oldp _ => oldp

/-- Whether the call has a result: `sfree` is `void`. -/
def returns : Call → Bool
  | sfree _ => false
  | _ => true

/-- Make the call. `sfree` returns nothing, written `0` here. -/
def exec (s : Heap) : Call → Option (ℕ × Heap)
  | smalloc outcome size => s.smalloc outcome size
  | scalloc outcome num size => s.scalloc outcome num size
  | sfree p => some (0, s.sfree p)
  | srealloc outcome beyond oldp size => s.srealloc outcome beyond oldp size

end Call

/-! ### Clients -/

/-- One event of a run: a call with its result, or a client writing byte `i` of the payload at
`p`. -/
inductive Event
  | call (c : Call) (ret : ℕ)
  | write (p i : ℕ) (v : UInt8)

/-- The heap and what its client holds: the pointers it was ever given, and those of them that it
has not given back. -/
structure Session where
  heap : Heap
  issued : Set ℕ
  live : Set ℕ

/-- The live pointers after a call with result `ret`. -/
def liveAfter (live : Set ℕ) (ret : ℕ) : Call → Set ℕ
  | .smalloc .. => if ret = 0 then live else insert ret live
  | .scalloc .. => if ret = 0 then live else insert ret live
  | .sfree p => live \ {p}
  | .srealloc _ _ oldp _ => if ret = 0 then live else insert ret (live \ {oldp})

/-- One event of a client that passes only `NULL` or `allowed` pointers to the allocator, and writes
only inside their payloads. -/
inductive Step (allowed : Session → Set ℕ) : Session → Event → Session → Prop
  | call {s : Session} {c : Call} {ret : ℕ} {heap : Heap}
      (harg : c.arg = 0 ∨ c.arg ∈ allowed s) (hexec : c.exec s.heap = some (ret, heap)) :
      Step allowed s (.call c ret)
        { heap, issued := if ret = 0 then s.issued else insert ret s.issued,
          live := liveAfter s.live ret c }
  | write {s : Session} {p i : ℕ} {v : UInt8}
      (hp : p ∈ allowed s) (hi : i < s.heap.size (p - metadataSize)) :
      Step allowed s (.write p i v)
        { s with heap := { s.heap with mem := Function.update s.heap.mem (p + i) v } }

/-- The runs of such clients from program start. -/
def client (allowed : Session → Set ℕ) : System Session Event where
  init s := s.heap.Fresh ∧ s.issued = ∅ ∧ s.live = ∅
  step := Step allowed

/-- A heap at program start. -/
def freshHeap : Heap := ⟨fun _ => 0, 4096, 0, 0, 0, 0, 0, 0⟩

theorem freshHeap_fresh : freshHeap.Fresh :=
  ⟨by decide, by decide, rfl, rfl, rfl, rfl, rfl, rfl⟩

/-- A program that allocates three blocks, writes into the second one, frees the first one and has
`srealloc` move the second one there. -/
theorem exists_moved (allowed : Session → Set ℕ)
    (hallowed : ∀ t p, p ∈ t.live → p ∈ t.issued → p ∈ allowed t) :
    ∃ s es t, (client allowed).init s ∧ (client allowed).Run s es t ∧
      t.issued = {4128, 4200, 4240} ∧ t.live = {4128, 4240} ∧
      t.heap.size 4096 = 40 ∧ t.heap.mem 4128 = 7 := by
  -- what the calls return, and what is read of the heaps
  have heval : (do
      let (p₁, h₁) ← freshHeap.smalloc (some 0) 40
      let (p₂, h₂) ← h₁.smalloc (some 0) 8
      let (p₃, h₃) ← h₂.smalloc (some 0) 40
      let h := { h₃ with mem := Function.update h₃.mem (4200 + 0) 7 }.sfree 4128
      let (p₄, h₄) ← h.srealloc none (fun _ => 0) 4200 40
      return [p₁, p₂, p₃, p₄, h₃.size 4168, h₄.size 4096, (h₄.mem 4128).toNat]) =
        some [4128, 4200, 4240, 4128, 8, 40, 7] := by decide +kernel
  simp only [Option.bind_eq_bind, Option.bind_eq_some_iff, Prod.exists, Option.pure_def,
    Option.some.injEq, List.cons.injEq, and_true] at heval
  obtain ⟨p₁, h₁, e₁, p₂, h₂, e₂, p₃, h₃, e₃, p₄, h₄, e₄, rfl, rfl, rfl, rfl, hroom, hsize,
    hbyte⟩ := heval
  have hinit : (client allowed).init ⟨freshHeap, ∅, ∅⟩ := ⟨freshHeap_fresh, rfl, rfl⟩
  have hstart : (client allowed).Run ⟨freshHeap, ∅, ∅⟩ [] ⟨freshHeap, ∅, ∅⟩ := .nil
  have hserved := hstart.snoc (Step.call (c := .smalloc (some 0) 40) (Or.inl rfl) e₁)
    |>.snoc (Step.call (c := .smalloc (some 0) 8) (Or.inl rfl) e₂)
    |>.snoc (Step.call (c := .smalloc (some 0) 40) (Or.inl rfl) e₃)
  have hwritten := hserved.snoc
    (Step.write (p := 4200) (i := 0) (v := 7) (hallowed _ _ (by simp [liveAfter]) (by simp))
      (hroom.symm ▸ by decide))
  have hfreed := hwritten.snoc (Step.call (c := .sfree 4128)
    (Or.inr (hallowed _ _ (by simp [liveAfter, Call.arg]) (by simp [Call.arg]))) rfl)
  have hmoved := hfreed.snoc (Step.call (c := .srealloc none (fun _ => 0) 4200 40)
    (Or.inr (hallowed _ _ (by simp [liveAfter, Call.arg]) (by simp [Call.arg]))) e₄)
  refine ⟨_, _, _, hinit, hmoved, ?_, ?_, hsize, UInt8.toNat_inj.mp hbyte⟩
  · ext p
    simp
    omega
  · ext p
    simp [liveAfter]
    omega

end OsHomework.Malloc2
