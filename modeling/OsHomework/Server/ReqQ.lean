import Mathlib.Data.List.Basic
import Mathlib.Tactic

/-!
# The request queue

`reqQ.c` as the server uses it: a bounded first-in first-out queue of
descriptors, each with the time it was inserted. The doubly linked list of the
source is a list here, head first, and `cur_size` is its length.

Indices and descriptors are C `int`s and `-1` is the source's error value, so
`removeFirstReq`, `removeReq` and `findFileId` answer in `Int`.
-/

namespace OsHomework
namespace Server

/-- `struct timeval`. -/
structure Timeval where
  tvSec : Int
  tvUsec : Int
  deriving DecidableEq, Repr

/-- `struct req`. A `timeval` is written once, before its request is inserted,
so the pointer to it is modelled by its value. -/
structure Req where
  insertionTime : Timeval
  data : Int
  deriving DecidableEq, Repr

/-- `struct req_q`. -/
structure ReqQ where
  maxSize : ℕ
  reqs : List Req
  deriving DecidableEq, Repr

namespace ReqQ

/-- `createReqQueue`. -/
def createReqQueue (limit : ℕ) : ReqQ := ⟨limit, []⟩

/-- `getQsize`. -/
def getQsize (q : ReqQ) : ℕ := q.reqs.length

/-- `isQfull`. -/
def isQfull (q : ReqQ) : Bool := q.getQsize == q.maxSize

/-- `isQempty`. -/
def isQempty (q : ReqQ) : Bool := q.getQsize == 0

/-- `insertReq`: a full queue is left as it is, without any report. -/
def insertReq (q : ReqQ) (fileId : Int) (tt : Timeval) : ReqQ :=
  if q.isQfull then q else { q with reqs := q.reqs ++ [⟨tt, fileId⟩] }

/-- `removeFirstReq`: the descriptor at the head and the queue without it. -/
def removeFirstReq (q : ReqQ) : Int × ReqQ :=
  match q.reqs with
  | [] => (-1, q)
  | r :: rs => (r.data, { q with reqs := rs })

/-- `removeReq`: the descriptor at `index` and the queue without that entry. -/
def removeReq (q : ReqQ) (index : Int) : Int × ReqQ :=
  if q.isQempty then (-1, q)
  else if index < 0 ∨ index ≥ q.getQsize then (-1, q)
  else if index = 0 then q.removeFirstReq
  else
    match q.reqs[index.toNat]? with
    | none => (-1, q)
    | some r => (r.data, { q with reqs := q.reqs.eraseIdx index.toNat })

/-- `findFileId`: the first index that holds `fileId`, or `-1`. -/
def findFileId (q : ReqQ) (fileId : Int) : Int :=
  match q.reqs.findIdx? (fun r => fileId == r.data) with
  | none => -1
  | some i => i

/-- `getFirstReqTime`. -/
def getFirstReqTime (q : ReqQ) : Option Timeval :=
  q.reqs.head?.map Req.insertionTime

/-- The descriptors in the queue, head first. -/
def fds (q : ReqQ) : List Int := q.reqs.map Req.data

/-! ### One lemma for each operation -/

variable {q : ReqQ}

@[simp] theorem length_fds (q : ReqQ) : q.fds.length = q.getQsize :=
  List.length_map _

theorem isQempty_iff : q.isQempty = true ↔ q.reqs = [] := by
  simp [isQempty, getQsize]

theorem isQfull_of_room (h : q.getQsize < q.maxSize) : q.isQfull = false :=
  beq_eq_false_iff_ne.mpr h.ne

theorem insertReq_of_room (h : q.getQsize < q.maxSize) (fd : Int) (t : Timeval) :
    q.insertReq fd t = { q with reqs := q.reqs ++ [⟨t, fd⟩] } := by
  rw [insertReq, isQfull_of_room h, if_neg Bool.false_ne_true]

/-- Inside the bounds `removeReq` takes out exactly the entry at the index. -/
theorem removeReq_of_lt {i : ℕ} {r : Req} (h : q.reqs[i]? = some r) :
    q.removeReq i = (r.data, { q with reqs := q.reqs.eraseIdx i }) := by
  have hi : i < q.reqs.length := (List.getElem?_eq_some_iff.mp h).1
  have hne : q.isQempty = false := by
    simp only [isQempty, getQsize, beq_eq_false_iff_ne]
    omega
  have hin : ¬((i : Int) < 0 ∨ (i : Int) ≥ q.getQsize) := by
    simp only [getQsize]
    omega
  rw [removeReq, hne, if_neg (by decide), if_neg hin]
  by_cases h0 : (i : Int) = 0
  · obtain rfl : i = 0 := by omega
    rw [if_pos h0]
    cases hq : q.reqs with
    | nil => simp [hq] at hi
    | cons r' rs =>
      obtain rfl : r' = r := by simpa [hq] using h
      simp [removeFirstReq, hq]
  · rw [if_neg h0]
    simp [h]

/-- A descriptor in the queue is found, and the entry at the index found holds it. -/
theorem findFileId_of_mem {fd : Int} (h : fd ∈ q.fds) :
    ∃ i : ℕ, ∃ r : Req, q.findFileId fd = i ∧ q.reqs[i]? = some r ∧ r.data = fd := by
  obtain ⟨r, hr, hfd⟩ := List.mem_map.mp h
  cases hfind : q.reqs.findIdx? (fun r => fd == r.data) with
  | none =>
    have := List.findIdx?_eq_none_iff.mp hfind r hr
    simp [hfd] at this
  | some i =>
    obtain ⟨hi, hp, -⟩ := List.findIdx?_eq_some_iff_getElem.mp hfind
    refine ⟨i, q.reqs[i], by simp [findFileId, hfind], List.getElem?_eq_getElem hi, ?_⟩
    exact (beq_iff_eq.mp hp).symm

end ReqQ

end Server
end OsHomework
