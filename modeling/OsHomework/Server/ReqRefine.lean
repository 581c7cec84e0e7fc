import OsHomework.Server.ReqLinks

/-!
# The request queue as a bounded sequence

Runs of calls on the linked structure of `reqQ.c` and on the bounded first-in first-out sequence
match call by call (`ReqList.Stands.call`), and so along every run (`ReqList.reqQueue_refines`).
The one thing that can come between them is the range of `cur_size`: a limit that is not negative
keeps it an `int`, and a negative limit, which no length ever meets, does not
(`ReqList.not_refines_of_negative_limit`).

The last section ties the sequence to `ReqQ`, the queue of the model of the server.
-/

namespace OsHomework
namespace Server
namespace ReqList

variable {q q' : ReqList} {A : List ℕ} {L : List (Int × ℕ)} {r : ℕ}

/-! ### Runs -/

/-- The call cannot take `cur_size` out of the range of an `int`. -/
def Countable (q : ReqList) (c : ReqCall) : Prop :=
  ∀ fileId tt, c = .insertReq fileId tt → q.curSize + 1 < 2 ^ 31

/-- A limit that is not negative keeps the queue countable by itself; under a negative one, which
no length ever meets, the calls have to. -/
def Bounded (limit : Int) (q : ReqList) (c : ReqCall) : Prop := 0 ≤ limit ∨ q.Countable c

/-- The relation between a structure and the sequence it stands for, along a run. -/
structure Stands (limit : Int) (q : ReqList) (L : List (Int × ℕ)) : Prop where
  rep : ∃ A, q.Represents A L
  maxSize_eq : q.maxSize = limit
  lt_int : (L.length : Int) < 2 ^ 31
  le_limit : 0 ≤ limit → (L.length : Int) ≤ limit

variable {limit : Int} {c : ReqCall}

theorem stands_create (limit : Int) : Stands limit (createReqQueue limit) [] where
  rep := ⟨[], ⟨.nil, rfl, rfl, fun _ hp => absurd rfl hp⟩, rfl⟩
  maxSize_eq := rfl
  lt_int := by norm_num
  le_limit := id

/-- A shorter sequence keeps within the bounds. -/
theorem Stands.shorter {L' : List (Int × ℕ)} (h : Stands limit q L)
    (hrep : q'.Represents A L') (hmax : q'.maxSize = q.maxSize) (hlen : L'.length ≤ L.length) :
    Stands limit q' L' where
  rep := ⟨A, hrep⟩
  maxSize_eq := hmax.trans h.maxSize_eq
  lt_int := by have := h.lt_int; omega
  le_limit := fun h0 => by have := h.le_limit h0; omega

theorem Stands.insertReq (hlimit : IsInt limit) (h : Stands limit q L) (hr : q.MallocAnswer r)
    {fd : Int} {tt : ℕ} (hc : Bounded limit q (.insertReq fd tt)) :
    ∃ q', q.insertReq r fd tt = some q' ∧
      Stands limit q' (if (L.length : Int) = limit then L else L ++ [(fd, tt)]) := by
  obtain ⟨A, hrep⟩ := h.rep
  by_cases hfull : (L.length : Int) = limit
  · have hq : q.isQfull = true := by
      rw [isQfull, beq_iff_eq, hrep.curSize_eq, h.maxSize_eq]
      exact hfull
    rw [if_pos hfull]
    exact ⟨q, if_pos hq, h⟩
  · obtain ⟨q', hcall, hshape, hsize, hmax⟩ :=
      hrep.insertReq hr (by rwa [h.maxSize_eq]) fd tt
    -- below a limit that is not negative the length stays an `int` because the limit is one
    have hint : (L.length : Int) + 1 < 2 ^ 31 := by
      by_cases h0 : 0 ≤ limit
      · have := h.le_limit h0
        have := hlimit.2
        omega
      · have := hc.resolve_left h0 fd tt rfl
        rwa [hrep.curSize_eq] at this
    rw [if_neg hfull]
    refine ⟨q', hcall, ⟨A ++ [r], hshape, ?_⟩, hmax.trans h.maxSize_eq, ?_, ?_⟩
    · rw [hsize, hrep.curSize_eq, wrapInt_eq ⟨by omega, hint⟩]
      simp
    · simpa using hint
    · intro h0
      have := h.le_limit h0
      simp only [List.length_append, List.length_cons, List.length_nil]
      omega

/-- **One call**: it has an outcome, and it returns and leaves what the bounded sequence does. -/
theorem Stands.call (hlimit : IsInt limit) (h : Stands limit q L) (hr : q.MallocAnswer r)
    (hc : Bounded limit q c) :
    ∃ q', q.call r c = some ((fifoCall limit L c).1, q') ∧
      Stands limit q' (fifoCall limit L c).2 := by
  obtain ⟨A, hrep⟩ := h.rep
  cases c with
  | insertReq fd tt =>
    obtain ⟨q', hcall, hq'⟩ := h.insertReq hlimit hr hc
    exact ⟨q', by rw [ReqList.call, hcall]; rfl, hq'⟩
  | removeFirstReq =>
    obtain ⟨q', A', hcall, hrep', hmax⟩ := hrep.removeFirstReq h.lt_int
    refine ⟨q', by rw [ReqList.call, hcall]; rfl, h.shorter hrep' hmax ?_⟩
    exact (List.tail_sublist L).length_le
  | removeReq index =>
    -- outside the bounds nothing is removed
    by_cases hout : index < 0 ∨ index ≥ L.length
    · rw [fifoCall, if_pos hout]
      exact ⟨q, by rw [ReqList.call, hrep.removeReq_out hout]; rfl, h⟩
    · obtain ⟨i, rfl⟩ := Int.eq_ofNat_of_zero_le (by omega : 0 ≤ index)
      have hi : i < L.length := by omega
      obtain ⟨q', A', hcall, hrep', hmax⟩ :=
        hrep.removeReq h.lt_int (List.getElem?_eq_getElem hi)
      rw [fifoCall, if_neg hout, Int.toNat_natCast, List.getElem?_eq_getElem hi]
      refine ⟨q', by rw [ReqList.call, hcall]; rfl, h.shorter hrep' hmax ?_⟩
      exact (List.eraseIdx_sublist L i).length_le
  | findFileId fd => exact ⟨q, by rw [ReqList.call, hrep.findFileId]; rfl, h⟩
  | getFirstReqTime => exact ⟨q, by rw [ReqList.call, hrep.getFirstReqTime]; rfl, h⟩
  | getReqTime fd => exact ⟨q, by rw [ReqList.call, hrep.getReqTime]; rfl, h⟩

/-- A step of the structure is a step of the sequence. -/
theorem Stands.step (hlimit : IsInt limit) {l : ReqCall × ReqRet} (h : Stands limit q L)
    (hstep : ((reqQueue limit).restrict fun q l => Bounded limit q l.1).step q l q') :
    ∃ L', (fifo limit).step L l L' ∧ Stands limit q' L' := by
  obtain ⟨hc, r, hr, hcall⟩ := hstep
  obtain ⟨q'', hcall', hq''⟩ := h.call hlimit hr hc
  -- the call has only one outcome
  rw [hcall'] at hcall
  obtain ⟨hret, rfl⟩ := Prod.ext_iff.mp (Option.some.inj hcall)
  exact ⟨_, Prod.ext hret rfl, hq''⟩

/-- There is always an address left for `malloc` to answer. -/
theorem Shape.exists_mallocAnswer (h : q.Shape A L) : ∃ r, q.MallocAnswer r := by
  obtain ⟨r, hr⟩ := Infinite.exists_notMem_finset (insert 0 A.toFinset)
  simp only [Finset.mem_insert, List.mem_toFinset, not_or] at hr
  refine ⟨r, hr.1, ?_⟩
  by_contra hlive
  exact hr.2 (h.owned r hlive)

/-- With a negative limit a queue can be filled up to any number of requests an `int` counts. -/
theorem exists_run_insertReq {k : ℕ} (hneg : limit < 0) (hlimit : IsInt limit) (fd : Int) (tt : ℕ)
    (hk : (k : Int) < 2 ^ 31) :
    ∃ q L, (reqQueue limit).Run (createReqQueue limit)
        (List.replicate k (.insertReq fd tt, .void)) q ∧ Stands limit q L ∧ L.length = k := by
  induction k with
  | zero => exact ⟨_, _, .nil, stands_create limit, rfl⟩
  | succ k ih =>
    obtain ⟨q, L, hrun, hq, hlen⟩ := ih (by omega)
    obtain ⟨A, hrep⟩ := hq.rep
    obtain ⟨r, hr⟩ := hrep.exists_mallocAnswer
    -- the count is still exact after one more
    have hc : q.Countable (.insertReq fd tt) := by
      intro _ _ _
      rw [hrep.curSize_eq, hlen]
      exact_mod_cast hk
    obtain ⟨q', hcall, hq'⟩ := hq.insertReq hlimit hr (.inr hc)
    -- a negative limit is never met
    have hroom : ¬ (L.length : Int) = limit := by omega
    rw [if_neg hroom] at hq'
    refine ⟨q', _, ?_, hq', by simp [hlen]⟩
    rw [List.replicate_succ']
    exact hrun.snoc ⟨r, hr, by rw [ReqList.call, hcall]; rfl⟩

/-- **The request queue is a bounded first-in first-out sequence.** In every run of calls that
leaves `cur_size` an `int`, the linked structure stands for the list that the same calls, with the
same answers, make of the bounded sequence. No call on it, whatever address `malloc` answers, reads
through a pointer it must not read through: in particular none follows the unwritten back link of
the head. -/
theorem reqQueue_refines {limit : Int} (hlimit : IsInt limit) {ls : List (ReqCall × ReqRet)}
    {q : ReqList} (hrun : ((reqQueue limit).restrict fun q l => Bounded limit q l.1).Run
      (createReqQueue limit) ls q) :
    ∃ A L, (fifo limit).Run [] ls L ∧ q.Represents A L ∧ q.maxSize = limit ∧
      ∀ c r, q.MallocAnswer r → Bounded limit q c →
        ∃ q' A', q.call r c = some ((fifoCall limit L c).1, q') ∧
          q'.Represents A' (fifoCall limit L c).2 := by
  -- matching calls lift to runs with the same calls and the same answers
  obtain ⟨L, hfifo, hq⟩ : ∃ L, (fifo limit).Run [] ls L ∧ Stands limit q L :=
    hrun.simulate (fun _ _ _ _ hs hstep => hs.step hlimit hstep) (stands_create limit)
  obtain ⟨A, hrep⟩ := hq.rep
  refine ⟨A, L, hfifo, hrep, hq.maxSize_eq, fun c r hr hc => ?_⟩
  obtain ⟨q', hcall, hq'⟩ := hq.call hlimit hr hc
  obtain ⟨A', hrep'⟩ := hq'.rep
  exact ⟨q', A', hcall, hrep'⟩

theorem reqQueue_refines_unlink_second :
    ∃ (q : ReqList) (A : List ℕ) (L : List (Int × ℕ)), q.Represents A L ∧
      (fifo 2).Run [] [(.insertReq 5 70, .void), (.insertReq 6 80, .void),
        (.removeReq 1, .int 6)] L := by
  have hbounded : ∀ (q : ReqList) (c : ReqCall), Bounded 2 q c := fun _ _ => .inl (by norm_num)
  have h₀ := @System.Run.nil _ _ ((reqQueue 2).restrict fun q l => Bounded 2 q l.1)
    (createReqQueue 2)
  have h₁ := h₀.snoc (l := (.insertReq 5 70, .void)) ⟨hbounded _ _, 1, ⟨by norm_num, rfl⟩, rfl⟩
  have h₂ := h₁.snoc (l := (.insertReq 6 80, .void)) ⟨hbounded _ _, 2, ⟨by norm_num, rfl⟩, rfl⟩
  have h₃ := h₂.snoc (l := (.removeReq 1, .int 6)) ⟨hbounded _ _, 3, ⟨by norm_num, rfl⟩, rfl⟩
  obtain ⟨A, L, hfifo, hrep, -⟩ := reqQueue_refines ⟨by norm_num, by norm_num⟩ h₃
  exact ⟨_, A, L, hrep, hfifo⟩

/-- A queue with a negative limit is never full: the insertion number `2 ^ 31` takes `cur_size`
to the least `int`, and the structure stands for no list any more. -/
theorem not_refines_of_negative_limit :
    IsInt (-1) ∧ ∃ q, (reqQueue (-1)).Run (createReqQueue (-1))
      (List.replicate (2 ^ 31) (.insertReq 4 1, .void)) q ∧ ¬ ∃ A L, q.Represents A L := by
  have hint : IsInt (-1) := ⟨by norm_num, by norm_num⟩
  obtain ⟨q, L, hrun, hq, hlen⟩ :=
    exists_run_insertReq (k := 2 ^ 31 - 1) (by norm_num) hint 4 1 (by norm_num)
  obtain ⟨A, hrep⟩ := hq.rep
  obtain ⟨r, hr⟩ := hrep.exists_mallocAnswer
  have hroom : (L.length : Int) ≠ q.maxSize := by
    rw [hq.maxSize_eq]
    omega
  -- one insertion more than an `int` counts
  obtain ⟨q', hcall, -, hsize, -⟩ := hrep.insertReq hr hroom 4 1
  refine ⟨hint, q', ?_, ?_⟩
  · have hsucc : (2 : ℕ) ^ 31 = 2 ^ 31 - 1 + 1 := by norm_num
    rw [hsucc, List.replicate_succ']
    exact hrun.snoc ⟨r, hr, by rw [ReqList.call, hcall]; rfl⟩
  · intro ⟨A', L', hrep'⟩
    -- `2 ^ 31` wraps around, and no list has a negative length
    have hneg : q'.curSize = -2 ^ 31 := by
      rw [hsize, hrep.curSize_eq, hlen]
      rfl
    rw [hrep'.curSize_eq] at hneg
    omega

end ReqList

/-! ### The queue of the server's model

`ReqQ` keeps the sequence itself, with a time where the structure has a pointer to one. Read
through `clock`, the sequence of a structure is a `ReqQ`, and the operations of `ReqQ` are the
calls on the sequence. -/

/-- The sequence, with the times the pointers lead to. -/
def toReqQ (clock : ℕ → Timeval) (limit : ℕ) (L : List (Int × ℕ)) : ReqQ :=
  ⟨limit, L.map fun e => ⟨clock e.2, e.1⟩⟩

section ToReqQ

variable (clock : ℕ → Timeval) (limit : ℕ) (L : List (Int × ℕ))

@[simp] theorem getQsize_toReqQ : (toReqQ clock limit L).getQsize = L.length :=
  List.length_map _

theorem toReqQ_insertReq (fd : Int) (tt : ℕ) :
    (toReqQ clock limit L).insertReq fd (clock tt)
      = toReqQ clock limit (fifoCall limit L (.insertReq fd tt)).2 := by
  have hfull : (toReqQ clock limit L).isQfull = true ↔ (L.length : Int) = limit := by
    rw [ReqQ.isQfull, getQsize_toReqQ, beq_iff_eq, Nat.cast_inj]
    rfl
  rw [fifoCall, ReqQ.insertReq]
  by_cases h : (L.length : Int) = limit
  · rw [if_pos (hfull.mpr h), if_pos h]
  · rw [if_neg (mt hfull.mp h), if_neg h]
    simp [toReqQ]

theorem toReqQ_removeFirstReq :
    fifoCall limit L .removeFirstReq
        = (.int (toReqQ clock limit L).removeFirstReq.1, L.tail) ∧
      (toReqQ clock limit L).removeFirstReq.2 = toReqQ clock limit L.tail := by
  cases L with
  | nil => exact ⟨rfl, rfl⟩
  | cons e L => exact ⟨rfl, rfl⟩

theorem toReqQ_removeReq (index : Int) :
    (fifoCall limit L (.removeReq index)).1
        = .int ((toReqQ clock limit L).removeReq index).1 ∧
      ((toReqQ clock limit L).removeReq index).2
        = toReqQ clock limit (fifoCall limit L (.removeReq index)).2 := by
  by_cases hout : index < 0 ∨ index ≥ L.length
  · -- outside the bounds both leave the queue alone
    have hsame : (toReqQ clock limit L).removeReq index = (-1, toReqQ clock limit L) := by
      simp only [ReqQ.removeReq, getQsize_toReqQ, if_pos hout, ite_self]
    rw [hsame, fifoCall, if_pos hout]
    exact ⟨rfl, rfl⟩
  · obtain ⟨i, rfl⟩ := Int.eq_ofNat_of_zero_le (by omega : 0 ≤ index)
    have hi : i < L.length := by omega
    have hget : (toReqQ clock limit L).reqs[i]? = some ⟨clock L[i].2, L[i].1⟩ := by
      simp [toReqQ, hi]
    rw [ReqQ.removeReq_of_lt hget, fifoCall, if_neg hout]
    simp [toReqQ, hi, List.eraseIdx_map]

theorem toReqQ_findFileId (fd : Int) :
    fifoCall limit L (.findFileId fd) = (.int ((toReqQ clock limit L).findFileId fd), L) := by
  have hfind : (toReqQ clock limit L).reqs.findIdx? (fun r => fd == r.data)
      = L.findIdx? fun e => fd == e.1 := by
    rw [toReqQ, List.findIdx?_map]
    rfl
  rw [fifoCall, ReqQ.findFileId, hfind]
  cases L.findIdx? fun e => fd == e.1 with
  | none => rfl
  | some i => rfl

theorem toReqQ_getFirstReqTime (h : L ≠ []) :
    ∃ p, fifoCall limit L .getFirstReqTime = (.time p, L) ∧
      (toReqQ clock limit L).getFirstReqTime = some (clock p) := by
  cases L with
  | nil => exact absurd rfl h
  | cons e L => exact ⟨e.2, rfl, rfl⟩

end ToReqQ

end Server
end OsHomework
