import OsHomework.Lib.ByteMem
import OsHomework.Lib.LinkedList
import OsHomework.Lib.Transition

/-!
# `malloc_3`: a buddy allocator

The allocator of `OS_HW4_234123/malloc_3.cpp`. A pool of 32 blocks of 128 KiB is obtained from
`sbrk` on the first `smalloc`; a block of order `k` has `128 * 2 ^ k` bytes, its `MallocMetadata`
header of 48 bytes included, and is kept in the list `mdListArr[k]`, free or not. Allocation splits
the first free block of the least sufficient order; freeing merges a block with its buddy, the block
at the address that differs in the bit of its size, for as long as the buddy is free. Larger
requests get a mapping of their own, kept in `mappedList`.

As in `malloc_2` the headers live in the bytes of the memory, a pointer is a natural number with `0`
for `NULL`, and a loop over a list may run for `2 ^ 64` steps. A result `none` is a call that does
not return, or that indexes `mdListArr` out of its bounds: with the `-1` of a size that is none of
the eleven, or with `11`. The memory is total, so that no access faults in the functions themselves;
`Heap.regions` records what the system has granted, for where it matters that a call returns.
-/

namespace OsHomework.Malloc3

/-! ### Metadata -/

/-- The fields of `MallocMetadata`. -/
inductive Field
  | size | is_free | next | prev | address | is_mmap
  deriving DecidableEq

/-- `MallocMetadata` as the x86-64 ABI lays it out. -/
def metadata : Layout Field where
  size := 48
  off
    | .size => 0
    | .is_free => 8
    | .next => 16
    | .prev => 24
    | .address => 32
    | .is_mmap => 40
  width
    | .is_free => 1
    | .is_mmap => 1
    | _ => 8
  fits i := by cases i <;> decide
  disjoint i j h := by cases i <;> cases j <;> first | exact absurd rfl h | decide

/-- `sizeof(MallocMetadata)`. -/
def metadataSize : ℕ := 48

namespace MD

def size (m : Mem) (p : ℕ) : ℕ := metadata.get .size m p

def isFree (m : Mem) (p : ℕ) : Bool := metadata.get .is_free m p ≠ 0

def next (m : Mem) (p : ℕ) : ℕ := metadata.get .next m p

def prev (m : Mem) (p : ℕ) : ℕ := metadata.get .prev m p

def address (m : Mem) (p : ℕ) : ℕ := metadata.get .address m p

def isMmap (m : Mem) (p : ℕ) : Bool := metadata.get .is_mmap m p ≠ 0

end MD

def metaDataInit (m : Mem) (md_ptr size : ℕ) (is_fr : Bool) (nxt prv adrs : ℕ) : Mem :=
  if md_ptr = 0 then m
  else
    let m := metadata.set .size m md_ptr size
    let m := metadata.set .is_free m md_ptr is_fr.toNat
    let m := metadata.set .next m md_ptr nxt
    let m := metadata.set .prev m md_ptr prv
    let m := metadata.set .address m md_ptr adrs
    metadata.set .is_mmap m md_ptr 0

/-! ### Sizes -/

/-- `MAX_ORDER`. -/
def maxOrder : ℕ := 10

/-- `SIZE_128K`. -/
def size128K : ℕ := 131072

def blocksSizesArr : List ℕ :=
  [128, 256, 512, 1024, 2048, 4096, 8192, 16384, 32768, 65536, 131072]

/-- `blocksSizesArr[i]`. -/
def sizeAt (i : ℕ) : ℕ := blocksSizesArr.getD i 0

/-- The index of a size, with `none` for the source's `-1`. -/
def findSizeIndexInList (size : ℕ) : Option ℕ := blocksSizesArr.findIdx? (· == size)

def invalidSize (size : ℕ) : Bool := size == 0 || decide (100000000 < size)

/-! ### Lists of headers -/

structure MDList where
  head : ℕ
  tail : ℕ
  deriving DecidableEq

namespace MDList

/-- The constructor `MDList()`. -/
def empty : MDList := ⟨0, 0⟩

def isEmpty (l : MDList) : Bool := l.head == 0

/-- Exactly one element. -/
def isAlmostEmpty (l : MDList) : Bool := l.head != 0 && l.head == l.tail

/-- Take the first free block of at least `requestedSize` bytes: its payload address, or `NULL`. -/
def findFreeSizedBlock (l : MDList) (m : Mem) (requestedSize : ℕ) : Option (ℕ × Mem) := do
  let (_, tmp) ← scan (MD.next m)
    (fun p => MD.isFree m p && decide (requestedSize ≤ MD.size m p)) wordLimit 0 l.head
  if tmp = 0 then return (0, m)
  let m := metadata.set .is_free m tmp 0
  return (MD.address m tmp, m)

/-- Insert in order of addresses. -/
def addMD (l : MDList) (m : Mem) (md : ℕ) : Option (Mem × MDList) :=
  if l.isEmpty then some (m, ⟨md, md⟩)
  else do
    let (prevTmp, nxtTmp) ← scan (MD.next m)
      (fun p => decide (MD.address m md < MD.address m p)) wordLimit 0 l.head
    if nxtTmp = 0 then
      -- the new tail: `md->next` is left as it was
      let m := metadata.set .next m prevTmp md
      let m := metadata.set .prev m md prevTmp
      return (m, ⟨l.head, md⟩)
    if nxtTmp = l.head then
      -- the new head: the old head's `prev` is left as it was
      let m := metadata.set .next m md l.head
      return (m, ⟨md, l.tail⟩)
    let m := metadata.set .next m prevTmp md
    let m := metadata.set .prev m md prevTmp
    let m := metadata.set .next m md nxtTmp
    let m := metadata.set .prev m nxtTmp md
    return (m, l)

/-- Remove the node with the address of `md`, if there is one, and clear its links. -/
def delMD (l : MDList) (m : Mem) (md : ℕ) : Option (Mem × MDList) :=
  if l.isEmpty then some (m, l)
  else do
    let (prevTmp, currTmp) ← scan (MD.next m)
      (fun p => decide (MD.address m md = MD.address m p)) wordLimit 0 l.head
    if currTmp = 0 then return (m, l)
    let (m, l') :=
      if currTmp = l.head then
        if l.isAlmostEmpty then (m, MDList.empty)
        else
          let head := MD.next m l.head
          (metadata.set .prev m head 0, ⟨head, l.tail⟩)
      else if currTmp = l.tail then
        (metadata.set .next m prevTmp 0, ⟨l.head, prevTmp⟩)
      else
        let m := metadata.set .next m prevTmp (MD.next m currTmp)
        (metadata.set .prev m (MD.next m currTmp) prevTmp, l)
    let m := metadata.set .prev m currTmp 0
    let m := metadata.set .next m currTmp 0
    return (m, l')

def freeBlocksNum (l : MDList) (m : Mem) : Option ℕ :=
  foldNodes (MD.next m) (fun sum p => if MD.isFree m p then (sum + 1) % wordLimit else sum)
    wordLimit 0 l.head

/-- The bytes of `size_t` a block of `size` bytes has behind its header. -/
def dataBytes (size : ℕ) : ℕ := (size + wordLimit - metadataSize) % wordLimit

def freeBlocksNumBytes (l : MDList) (m : Mem) : Option ℕ :=
  foldNodes (MD.next m)
    (fun sum p => if MD.isFree m p then (sum + dataBytes (MD.size m p)) % wordLimit else sum)
    wordLimit 0 l.head

def allBlocksNum (l : MDList) (m : Mem) : Option ℕ :=
  foldNodes (MD.next m) (fun sum _ => (sum + 1) % wordLimit) wordLimit 0 l.head

def allBlocksNumBytes (l : MDList) (m : Mem) : Option ℕ :=
  foldNodes (MD.next m) (fun sum p => (sum + dataBytes (MD.size m p)) % wordLimit)
    wordLimit 0 l.head

end MDList

/-! ### The heap -/

/-- Which of the lists: `mdListArr[k]` or `mappedList`. -/
inductive Slot
  | order (k : ℕ)
  | mapped
  deriving DecidableEq

/-- The allocator's globals, the memory, and the regions the system has granted: start and
length. -/
structure Heap where
  mem : Mem
  firstMalloc : Bool
  mdListArr : ℕ → MDList
  mappedList : MDList
  regions : List (ℕ × ℕ)

/-- What the system calls of one `smalloc` return, should they be made; a failure is `(void*)-1`. -/
structure Answers where
  /-- `sbrk(0)`. -/
  prevProgramBreak : ℕ
  /-- The `sbrk` that obtains the pool. -/
  pdAdrs : ℕ
  /-- `mmap`. -/
  mmapped : ℕ

/-- `(void*)-1`. -/
def failed : ℕ := wordLimit - 1

namespace Heap

def list (s : Heap) : Slot → MDList
  | .order k => s.mdListArr k
  | .mapped => s.mappedList

def setList (s : Heap) (l : MDList) : Slot → Heap
  | .order k => { s with mdListArr := Function.update s.mdListArr k l }
  | .mapped => { s with mappedList := l }

def setMem (s : Heap) (m : Mem) : Heap := { s with mem := m }

/-- `addMD` on one of the global lists. -/
def addMD (s : Heap) (i : Slot) (md : ℕ) : Option Heap := do
  let (m, l) ← (s.list i).addMD s.mem md
  return (s.setList l i).setMem m

/-- `delMD` on one of the global lists. -/
def delMD (s : Heap) (i : Slot) (md : ℕ) : Option Heap := do
  let (m, l) ← (s.list i).delMD s.mem md
  return (s.setList l i).setMem m

/-! ### Splitting -/

/-- The loop of `splitBlocks_ChallengeZero`: `spliN` times, make the upper half of the block at `md`
a free block one order below. -/
def splitLoop (md : ℕ) : ℕ → ℕ → Heap → Option (ℕ × Heap)
  | 0, index, s => some (index, s)
  | spliN + 1, index, s => do
    let newMD := md + sizeAt (index - 1)
    let s := s.setMem (metaDataInit s.mem newMD (sizeAt (index - 1)) true 0 0
      (md + sizeAt (index - 1) + metadataSize))
    let s ← s.addMD (.order (index - 1)) newMD
    splitLoop md spliN (index - 1) s

def splitBlocks_ChallengeZero (s : Heap) (md index spliN : ℕ) : Option Heap :=
  if spliN = 0 then some s
  else do
    -- the block leaves its list before its size changes
    let s ← s.delMD (.order index) md
    let (index, s) ← splitLoop md spliN index s
    let s := s.setMem (metaDataInit s.mem md (sizeAt index) false 0 0 (MD.address s.mem md))
    s.addMD (.order index) md

/-- The loop of `findExactSizeBlock_ChallengeZero` over the orders from `i` on. -/
def findExactLoop (size : ℕ) : ℕ → ℕ → ℕ → Heap → Option (ℕ × Heap)
  | 0, _, _, s => some (0, s)
  | n + 1, i, splitNum, s =>
    if size ≤ sizeAt i then do
      let (freeBlock, m) ← (s.mdListArr i).findFreeSizedBlock s.mem size
      let s := s.setMem m
      if freeBlock ≠ 0 then
        let metaRes := freeBlock - metadataSize
        -- one split for each larger order that was passed over without a free block
        let s ← s.splitBlocks_ChallengeZero metaRes i splitNum
        return (metaRes + metadataSize, s.setMem (metadata.set .is_free s.mem metaRes 0))
      findExactLoop size n (i + 1) (splitNum + 1) s
    else findExactLoop size n (i + 1) splitNum s

def findExactSizeBlock_ChallengeZero (s : Heap) (size : ℕ) : Option (ℕ × Heap) :=
  findExactLoop size (maxOrder + 1) 0 0 s

/-! ### Allocating -/

/-- The loop of the first `smalloc`: headers for the blocks of 128 KiB from `res` on. -/
def initLoop : ℕ → ℕ → Heap → Option Heap
  | 0, _, s => some s
  | n + 1, res, s => do
    let s := s.setMem (metaDataInit s.mem res size128K true 0 0 (res + metadataSize))
    let s ← s.addMD (.order maxOrder) res
    initLoop n (res + size128K) s

/-- A region granted by the system, unless the call failed. -/
def grant (s : Heap) (start len : ℕ) : Heap :=
  if start = failed then s else { s with regions := (start, len) :: s.regions }

/-- `munmap`. -/
def munmap (s : Heap) (start len : ℕ) : Heap := { s with regions := s.regions.erase (start, len) }

/-- What the first `smalloc` does before anything else: obtain the pool, aligned to 128 KiB. -/
def initPool (s : Heap) (os : Answers) : Option Heap := do
  let pb := os.prevProgramBreak % size128K
  let s := { s with firstMalloc := false }.grant os.pdAdrs (32 * size128K - pb + size128K)
  -- pointer arithmetic, modulo the address space
  let res := (os.pdAdrs + (wordLimit - pb) + size128K) % wordLimit
  let s := { s with mdListArr := fun _ => MDList.empty }
  let s ← initLoop 32 res s
  return { s with mappedList := MDList.empty }

/-- The mapping case of `smalloc`. -/
def smallocMapped (s : Heap) (os : Answers) (tot_size : ℕ) : Option (ℕ × Heap) := do
  let mappedMD := os.mmapped
  -- the result is not compared with `MAP_FAILED`
  let s := s.grant mappedMD tot_size
  let m := metaDataInit s.mem mappedMD tot_size false 0 0 (mappedMD + metadataSize)
  let s := s.setMem (metadata.set .is_mmap m mappedMD 1)
  let s ← s.addMD .mapped mappedMD
  return (MD.address s.mem mappedMD, s)

def smalloc (s : Heap) (os : Answers) (size : ℕ) : Option (ℕ × Heap) := do
  let tot_size := (metadataSize + size) % wordLimit
  -- the pool is set up before the size is looked at
  let s ← if s.firstMalloc then s.initPool os else some s
  if invalidSize size then return (0, s)
  if tot_size ≤ size128K then s.findExactSizeBlock_ChallengeZero tot_size
  else s.smallocMapped os tot_size

def scalloc (s : Heap) (os : Answers) (num size : ℕ) : Option (ℕ × Heap) := do
  -- `size*num` is computed in `size_t`
  let tot_size := size * num % wordLimit
  if size = 0 ∨ num = 0 then return (0, s)
  if 100000000 < tot_size then return (0, s)
  let (adrs, s) ← s.smalloc os tot_size
  if adrs = 0 then return (0, s)
  return (adrs, s.setMem (s.mem.fill adrs tot_size 0))

/-! ### Freeing -/

def findNeighboringBlock_ChallengeOne (s : Heap) (md : ℕ) : ℕ := md ^^^ MD.size s.mem md

/-- The merging loop of `sfree`, entered with `res` and `neighMD`. -/
def mergeLoop : ℕ → ℕ → ℕ → Heap → Option Heap
  | 0, _, _, _ => none
  | fuel + 1, res, neighMD, s =>
    if MD.isFree s.mem neighMD && decide (MD.size s.mem res < size128K) then do
      let i ← findSizeIndexInList (MD.size s.mem res)
      let s ← s.delMD (.order i) res
      -- nothing compares the size of `neighMD` with that of `res`
      let s ← s.delMD (.order i) neighMD
      -- the lower of the two headers is the one that stays
      let res := if MD.address s.mem neighMD < MD.address s.mem res then neighMD else res
      let m := metadata.set .size s.mem res (MD.size s.mem res * 2 % wordLimit)
      let s := s.setMem (metadata.set .is_free m res 1)
      let s ← s.addMD (.order (i + 1)) res
      if MD.size s.mem res = size128K then return s
      mergeLoop fuel res (s.findNeighboringBlock_ChallengeOne res) s
    else some s

def sfree (s : Heap) (p : ℕ) : Option Heap :=
  if p = 0 then some s
  else
    let res := p - metadataSize
    if MD.isFree s.mem res then some s
    else if size128K < MD.size s.mem res ∨ MD.isMmap s.mem res = true then do
      -- the header is read once more after it has left the list
      let s ← s.delMD .mapped res
      return s.munmap res (MD.size s.mem res)
    else
      let s := s.setMem (metadata.set .is_free s.mem res 1)
      if MD.size s.mem res = size128K then some s
      else
        let neighMD := s.findNeighboringBlock_ChallengeOne res
        if MD.isFree s.mem neighMD then mergeLoop wordLimit res neighMD s else some s

/-! ### Reallocating -/

def memmove (s : Heap) (c : Copy) : Heap :=
  s.setMem (s.mem.blit c.dst c.len fun i => s.mem (c.src + i))

/-- The merging loop of `srealloc`, entered with `neighMd`. The first result is what it assigns to
`newMD`, if it does. -/
def growLoop (current new_size : ℕ) : ℕ → ℕ → Heap → Option (Option ℕ × Heap)
  | 0, _, _ => none
  | fuel + 1, neighMd, s =>
    if MD.isFree s.mem neighMd && decide (MD.size s.mem neighMd < size128K) then do
      let i ← findSizeIndexInList (MD.size s.mem current)
      -- unlike in `sfree`, `current` stays the header whichever lies lower
      let s ← s.delMD (.order i) current
      let s ← s.delMD (.order i) neighMd
      let s := s.setMem (metadata.set .size s.mem current (MD.size s.mem current * 2 % wordLimit))
      -- `mdListArr[i + 1]` is past the end of the array
      if i = maxOrder then none
      else
        let s ← s.addMD (.order (i + 1)) current
        let neighMd := s.findNeighboringBlock_ChallengeOne current
        if new_size ≤ MD.size s.mem current then return (some (MD.address s.mem current), s)
        growLoop current new_size fuel neighMd s
    else some (none, s)

/-- The end of `srealloc`: a mapped block is given back, its header read once more after
`munmap`. -/
def releaseMapped (s : Heap) (current : ℕ) : Option Heap :=
  if MD.isMmap s.mem current then
    (s.munmap current (MD.size s.mem current)).delMD .mapped current
  else some s

/-- `srealloc`, with the `memmove` it makes, if it makes one. The variable `newMD` is declared
without a value: `junk` is what it holds as long as nothing is assigned to it. -/
def sreallocTraced (s : Heap) (os : Answers) (junk oldp size : ℕ) :
    Option (Option Copy × ℕ × Heap) :=
  if size = 0 then some (none, 0, s)
  else if oldp = 0 then (s.smalloc os size).map fun x => (none, x)
  else
    let new_size := (size + metadataSize) % wordLimit
    let current := oldp - metadataSize
    if MD.size s.mem current = new_size ∨
        new_size ≤ MD.size s.mem current ∧ MD.isMmap s.mem current = false then
      some (none, oldp, s)
    else
      let neighMd := s.findNeighboringBlock_ChallengeOne current
      if MD.isFree s.mem neighMd then do
        let (assigned, s) ← growLoop current new_size wordLimit neighMd s
        let newMD := assigned.getD junk
        let copy : Copy := ⟨newMD, oldp, MD.size s.mem current⟩
        let s ← (s.memmove copy).releaseMapped current
        return (some copy, newMD, s)
      else do
        -- the old block is given up first, and taken back if there is no other
        let s := s.setMem (metadata.set .is_free s.mem current 1)
        let (newMD, s) ← s.smalloc os size
        if newMD = 0 then return (none, 0, s.setMem (metadata.set .is_free s.mem current 0))
        let copy : Copy := ⟨newMD, oldp, MD.size s.mem current⟩
        let s ← (s.memmove copy).releaseMapped current
        return (some copy, newMD, s)

def srealloc (s : Heap) (os : Answers) (junk oldp size : ℕ) : Option (ℕ × Heap) :=
  (s.sreallocTraced os junk oldp size).map Prod.snd

/-! ### Statistics -/

/-- `sum += n` for an `int` sum and a `size_t`: the 32 bits that are left of it. -/
def addToInt (sum n : ℕ) : ℕ := (sum + n) % 2 ^ 32

/-- `sum += n` for two `size_t`. -/
def addToSize (sum n : ℕ) : ℕ := (sum + n) % wordLimit

/-- An `int`, given by its 32 bits, returned as a `size_t`: a negative one is extended by its
sign. -/
def intToSize (n : ℕ) : ℕ := if n < 2 ^ 31 then n else n + (wordLimit - 2 ^ 32)

/-- The loop of the statistics over `mdListArr`. -/
def sumLists (s : Heap) (count : MDList → Mem → Option ℕ) (add : ℕ → ℕ → ℕ) : Option ℕ :=
  (List.range (maxOrder + 1)).foldlM
    (fun sum i => (count (s.mdListArr i) s.mem).map (add sum)) 0

def _num_free_blocks (s : Heap) : Option ℕ :=
  (s.sumLists MDList.freeBlocksNum addToInt).map intToSize

def _num_free_bytes (s : Heap) : Option ℕ := s.sumLists MDList.freeBlocksNumBytes addToSize

def _num_allocated_blocks (s : Heap) : Option ℕ := do
  let blockCnt ← s.sumLists MDList.allBlocksNum addToInt
  let n ← s.mappedList.allBlocksNum s.mem
  return intToSize (addToInt blockCnt n)

def _num_allocated_bytes (s : Heap) : Option ℕ := do
  let bytesCnt ← s.sumLists MDList.allBlocksNumBytes addToInt
  let n ← s.mappedList.allBlocksNumBytes s.mem
  return intToSize (addToInt bytesCnt n)

def _num_meta_data_bytes (s : Heap) : Option ℕ := do
  let n ← s._num_allocated_blocks
  return n * metadataSize % wordLimit

def _size_meta_data : ℕ := metadataSize

/-- The globals as the program starts; the memory may hold anything. -/
structure Fresh (s : Heap) : Prop where
  firstMalloc : s.firstMalloc = true
  mdListArr : s.mdListArr = fun _ => MDList.empty
  mappedList : s.mappedList = MDList.empty
  regions : s.regions = []

end Heap

/-! ### Clients -/

/-- Regions that do not overlap. -/
def Beside (r r' : ℕ × ℕ) : Prop := r.1 + r.2 ≤ r'.1 ∨ r'.1 + r'.2 ≤ r.1

/-- The region that the first `smalloc` asks `sbrk` for. -/
def Answers.sbrked (os : Answers) : ℕ × ℕ :=
  (os.pdAdrs, 32 * size128K - os.prevProgramBreak % size128K + size128K)

/-- `sbrk` succeeds: it returns the old break, and what it grants lies in the address space. -/
structure Answers.SbrkOk (os : Answers) : Prop where
  adrs : os.pdAdrs = os.prevProgramBreak
  lt : os.sbrked.1 + os.sbrked.2 < wordLimit

/-- `mmap` of `len` bytes succeeds: what it grants lies in the address space, beside the
`regions`. -/
structure Answers.MmapOk (os : Answers) (len : ℕ) (regions : List (ℕ × ℕ)) : Prop where
  ne_zero : os.mmapped ≠ 0
  lt : os.mmapped + len < wordLimit
  beside : ∀ r ∈ regions, Beside (os.mmapped, len) r

/-- The system calls that `smalloc(size)` makes in the heap `s` succeed. -/
structure Heap.Served (s : Heap) (os : Answers) (size : ℕ) : Prop where
  sbrk : s.firstMalloc = true → os.SbrkOk
  mmap : invalidSize size = false → size128K < metadataSize + size →
    os.MmapOk (metadataSize + size) (if s.firstMalloc then os.sbrked :: s.regions else s.regions)

/-- A call a client makes, with what the system answers. -/
inductive Call
  | smalloc (os : Answers) (size : ℕ)
  | scalloc (os : Answers) (num size : ℕ)
  | sfree (p : ℕ)

namespace Call

/-- The pointer a call hands back to the allocator, if any. -/
def arg : Call → ℕ
  | smalloc .. => 0
  | scalloc .. => 0
  | sfree p => p

/-- The size for which a call enters `smalloc`, if it does: `scalloc` refuses some by itself. -/
def request : Call → Option (Answers × ℕ)
  | smalloc os size => some (os, size)
  | scalloc os num size =>
    if size = 0 ∨ num = 0 ∨ 100000000 < size * num % wordLimit then none
    else some (os, size * num % wordLimit)
  | sfree _ => none

/-- Make the call. `sfree` returns nothing, written `0` here. -/
def exec (s : Heap) : Call → Option (ℕ × Heap)
  | smalloc os size => s.smalloc os size
  | scalloc os num size => s.scalloc os num size
  | sfree p => (s.sfree p).map fun s => (0, s)

/-- The system calls made in the call succeed. -/
def Served (s : Heap) (c : Call) : Prop :=
  ∀ os size, c.request = some (os, size) → s.Served os size

end Call

/-- One event of a run: a call with its result, or a client writing byte `i` of the payload at
`p`. -/
inductive Event
  | call (c : Call) (ret : ℕ)
  | write (p i : ℕ) (v : UInt8)

/-- The heap, and the pointers its client holds. -/
structure Session where
  heap : Heap
  live : Set ℕ

/-- The live pointers after a call with result `ret`. -/
def liveAfter (live : Set ℕ) (ret : ℕ) : Call → Set ℕ
  | .smalloc .. => if ret = 0 then live else insert ret live
  | .scalloc .. => if ret = 0 then live else insert ret live
  | .sfree p => live \ {p}

/-- The bytes behind the header of the block whose payload is at `p`. -/
def Heap.payloadSize (s : Heap) (p : ℕ) : ℕ := MD.size s.mem (p - metadataSize) - metadataSize

/-- One event of a client that frees only `NULL` or live pointers and writes only inside live
payloads, on a system whose calls succeed. -/
inductive Step : Session → Event → Session → Prop
  | call {s : Session} {c : Call} {ret : ℕ} {heap : Heap}
      (harg : c.arg = 0 ∨ c.arg ∈ s.live) (hserved : c.Served s.heap)
      (hexec : c.exec s.heap = some (ret, heap)) :
      Step s (.call c ret) ⟨heap, liveAfter s.live ret c⟩
  | write {s : Session} {p i : ℕ} {v : UInt8} (hp : p ∈ s.live) (hi : i < s.heap.payloadSize p) :
      Step s (.write p i v) { s with heap := s.heap.setMem (Function.update s.heap.mem (p + i) v) }

/-- The runs of such clients from program start. -/
def client : System Session Event where
  init s := s.heap.Fresh ∧ s.live = ∅
  step := Step

end OsHomework.Malloc3
