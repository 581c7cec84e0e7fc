import OsHomework.Lib.CInt
import OsHomework.Lib.Transition
import OsHomework.Server.ReqQ

/-!
# The linked structure behind the request queue

`reqQ.c` keeps its requests in a doubly linked list on the heap, with the number of nodes, the head
and the tail beside it. This module is the pointer level of that file: every operation reads and
writes nodes through addresses, and one that reads through a null, a dangling or an unwritten
pointer has no outcome (`none`).

`createRequest` leaves two members of a new node unwritten. `insertReq` fills in the time at once,
but the `previous` link of a node that enters an empty queue stays as `malloc` left it until some
`removeFirstReq` makes the node head again. The operations get along with that because the link of
the head is never followed.

`fifoCall` says what the calls are for: a bounded first-in first-out sequence of descriptors and
times.
-/

namespace OsHomework
namespace Server

/-- `struct req`. Pointers are addresses, and `0` is `NULL`; a member that has not been written
since `malloc` is `none`. -/
structure ReqNode where
  insertionTime : Option ℕ
  data : Int
  next : ℕ
  previous : Option ℕ
  deriving DecidableEq, Repr

/-- `struct req_q`, with the nodes on the heap. -/
structure ReqList where
  maxSize : Int
  curSize : Int
  head : ℕ
  tail : ℕ
  nodes : ℕ → Option ReqNode

namespace ReqList

/-- `createReqQueue`, when its `malloc` succeeds. -/
def createReqQueue (limit : Int) : ReqList := ⟨limit, 0, 0, 0, fun _ => none⟩

/-- `isQfull`. The queue of the model is one that was created, so that `isQnull` never holds here
and below. -/
def isQfull (q : ReqList) : Bool := q.curSize == q.maxSize

/-- `isQempty`. -/
def isQempty (q : ReqList) : Bool := q.curSize == 0

/-- `getQsize`. -/
def getQsize (q : ReqList) : Int := q.curSize

/-- `incSize`. -/
def incSize (q : ReqList) : ReqList := { q with curSize := wrapInt (q.curSize + 1) }

/-- `decSize`. -/
def decSize (q : ReqList) : ReqList := { q with curSize := wrapInt (q.curSize - 1) }

/-- An assignment to a member of the node at `p`. -/
def store (q : ReqList) (p : ℕ) (f : ReqNode → ReqNode) : Option ReqList := do
  let n ← q.nodes p
  some { q with nodes := Function.update q.nodes p (some (f n)) }

/-- `free`, of a node. -/
def free (q : ReqList) (p : ℕ) : Option ReqList := do
  let _ ← q.nodes p
  some { q with nodes := Function.update q.nodes p none }

/-- `createRequest`, when its `malloc` answers `r`: neither `insertion_time` nor `previous` is
written. -/
def createRequest (q : ReqList) (r : ℕ) (fd : Int) : ReqList :=
  { q with nodes := Function.update q.nodes r (some ⟨none, fd, 0, none⟩) }

/-- `insertReq`, when the `malloc` of `createRequest` answers `r`. -/
def insertReq (q : ReqList) (r : ℕ) (fileId : Int) (tt : ℕ) : Option ReqList :=
  if q.isQfull then some q
  else do
    let q ← (q.createRequest r fileId).store r fun n => { n with insertionTime := some tt }
    if q.isQempty then
      -- the `previous` link of the new head is not written
      some { q with head := r, tail := r }.incSize
    else do
      let q ← q.store q.tail fun n => { n with next := r }
      let q ← q.store r fun n => { n with previous := some q.tail }
      some { q with tail := r }.incSize

/-- `removeFirstReq`. -/
def removeFirstReq (q : ReqList) : Option (Int × ReqList) :=
  if q.isQempty then some (-1, q)
  else do
    let hd ← q.nodes q.head
    if q.curSize = 1 then do
      let q ← q.free q.head
      some (hd.data, { q with head := 0, tail := 0 }.decSize)
    else do
      let tmp := hd.next
      let q ← q.free q.head
      let q ← { q with head := tmp }.store tmp fun n => { n with previous := some 0 }
      some (hd.data, q.decSize)

/-- The loop of `removeReq`: `i` times `tmp = tmp->next`. -/
def walk (nodes : ℕ → Option ReqNode) : ℕ → ℕ → Option ℕ
  | 0, tmp => some tmp
  | i + 1, tmp => do
    let n ← nodes tmp
    walk nodes i n.next

/-- `removeReq`. -/
def removeReq (q : ReqList) (index : Int) : Option (Int × ReqList) :=
  if q.isQempty then some (-1, q)
  else
    let ss := q.getQsize
    if ss = -1 then some (-1, q)
    else if index < 0 ∨ index ≥ ss then some (-1, q)
    else if index = 0 then q.removeFirstReq
    else do
      let tmp ← walk q.nodes index.toNat q.head
      let n ← q.nodes tmp
      let prev ← n.previous
      if prev = 0 then q.removeFirstReq
      else do
        let q ← q.store prev fun m => { m with next := n.next }
        -- `prev->next` is `tmp->next` from here on
        let q ← if n.next ≠ 0 then q.store n.next fun m => { m with previous := some prev }
          else some q
        let q := if index ≥ ss - 1 then { q with tail := prev } else q
        let q ← q.free tmp
        some (n.data, q.decSize)

/-- The loop of `findFileId` and of `getReqTime`, with `left` rounds to go: the value of `i` and of
`tmp` at the first node that holds `fd`. -/
def search (nodes : ℕ → Option ReqNode) (fd : Int) : ℕ → ℕ → ℕ → Option (Option (ℕ × ℕ))
  | 0, _, _ => some none
  | left + 1, i, tmp => do
    let n ← nodes tmp
    if fd = n.data then some (some (i, tmp)) else search nodes fd left (i + 1) n.next

/-- `findFileId`. -/
def findFileId (q : ReqList) (fileId : Int) : Option Int :=
  if q.isQempty then some (-1)
  else
    let ss := q.getQsize
    if ss = -1 ∨ ss = 0 then some (-1)
    else do
      let found ← search q.nodes fileId ss.toNat 0 q.head
      some (found.elim (-1) fun hit => (hit.1 : Int))

/-- `getFirstReqTime`. -/
def getFirstReqTime (q : ReqList) : Option ℕ :=
  if q.isQempty then some 0
  else if q.head = 0 then some 0
  else do
    let n ← q.nodes q.head
    n.insertionTime

/-- `getReqTime`. The time of day it asks for is not used. -/
def getReqTime (q : ReqList) (fd : Int) : Option ℕ :=
  if q.isQempty then some 0
  else
    let ss := q.getQsize
    if ss = -1 then some 0
    else do
      let found ← search q.nodes fd ss.toNat 0 q.head
      found.elim (some 0) fun hit => do
        let n ← q.nodes hit.2
        n.insertionTime

end ReqList

/-! ### Calls, and what they are for -/

/-- A call of one of the operations. -/
inductive ReqCall
  | insertReq (fileId : Int) (tt : ℕ)
  | removeFirstReq
  | removeReq (index : Int)
  | findFileId (fileId : Int)
  | getFirstReqTime
  | getReqTime (fd : Int)
  deriving DecidableEq, Repr

/-- What a call returns. -/
inductive ReqRet
  | void
  | int (n : Int)
  | time (p : ℕ)
  deriving DecidableEq, Repr

/-- One call on the linked structure, with the answer `r` of `malloc` in case it allocates. -/
def ReqList.call (q : ReqList) (r : ℕ) : ReqCall → Option (ReqRet × ReqList)
  | .insertReq fileId tt => (q.insertReq r fileId tt).map fun q' => (.void, q')
  | .removeFirstReq => q.removeFirstReq.map fun x => (.int x.1, x.2)
  | .removeReq index => (q.removeReq index).map fun x => (.int x.1, x.2)
  | .findFileId fileId => (q.findFileId fileId).map fun n => (.int n, q)
  | .getFirstReqTime => q.getFirstReqTime.map fun p => (.time p, q)
  | .getReqTime fd => (q.getReqTime fd).map fun p => (.time p, q)

/-- What the calls are for: a first-in first-out sequence of descriptors and times, bounded by
`limit`. -/
def fifoCall (limit : Int) (L : List (Int × ℕ)) : ReqCall → ReqRet × List (Int × ℕ)
  | .insertReq fileId tt => (.void, if (L.length : Int) = limit then L else L ++ [(fileId, tt)])
  | .removeFirstReq => (.int (L.head?.elim (-1) Prod.fst), L.tail)
  | .removeReq index =>
    if index < 0 ∨ index ≥ L.length then (.int (-1), L)
    else (.int (L[index.toNat]?.elim (-1) Prod.fst), L.eraseIdx index.toNat)
  | .findFileId fileId =>
    (.int ((L.findIdx? fun e => fileId == e.1).elim (-1) fun i => (i : Int)), L)
  | .getFirstReqTime => (.time (L.head?.elim 0 Prod.snd), L)
  | .getReqTime fd => (.time ((L.find? fun e => fd == e.1).elim 0 Prod.snd), L)

/-- An answer of `malloc` that is not a failure: not null, and not the address of a live node. -/
def ReqList.MallocAnswer (q : ReqList) (r : ℕ) : Prop := r ≠ 0 ∧ q.nodes r = none

/-- The runs of the linked structure: any calls in any order, each labelled with what it
returned. -/
def reqQueue (limit : Int) : System ReqList (ReqCall × ReqRet) where
  init q := q = ReqList.createReqQueue limit
  step q l q' := ∃ r, q.MallocAnswer r ∧ q.call r l.1 = some (l.2, q')

/-- The runs of the bounded sequence. -/
def fifo (limit : Int) : System (List (Int × ℕ)) (ReqCall × ReqRet) where
  init L := L = []
  step L l L' := fifoCall limit L l.1 = (l.2, L')

end Server
end OsHomework
