import OsHomework.Lib.DoublyLinked
import OsHomework.Lib.Transition
import OsHomework.Malloc3.MDList

/-!
# The two directions of an `MDList`

An `MDList` on its own, under any sequence of `addMD` and `delMD`: headers at any
places that do not overlap, with any distinct addresses, cleared before they are
added. Between two calls others may write what they like, apart from the links and the
addresses of the headers on the list.

Along `next` the list is sorted after every call (`ListUse.Holds`). The back links are
right as long as no header is put in front of a list that has one already: in this case
`addMD` sets the link from the new head to the old one and no link back. Of the calls
that come up, this is the only one that leaves the two directions different
(`doublyLinked_runs`).
-/

namespace OsHomework.Malloc3

/-- The list and the memory it is in, with the headers that have been added and not deleted. -/
structure ListUse where
  mem : Mem
  list : MDList
  added : Set ℕ

/-- The calls, and the writes of others in between. -/
inductive ListOp
  | add (md : ℕ)
  | del (md : ℕ)
  | write (m : Mem)

/-- `md` may be added: a header of its own with cleared links and an address of its own. -/
structure Addable (s : ListUse) (md : ℕ) : Prop where
  notMem : md ∉ s.added
  apart : Apart (insert md s.added)
  next : MD.next s.mem md = 0
  prev : MD.prev s.mem md = 0
  address : ∀ a ∈ s.added, MD.address s.mem a ≠ MD.address s.mem md

namespace ListOp

/-- What the callers keep to. -/
def Permitted (s : ListUse) : ListOp → Prop
  | add md => Addable s md
  -- `delMD` goes by the `address` alone, so a header that is not there has one of its own too
  | del md => md ∉ s.added → ∀ a ∈ s.added, MD.address s.mem a ≠ MD.address s.mem md
  | write m => ∀ a ∈ s.added, MD.next m a = MD.next s.mem a ∧ MD.prev m a = MD.prev s.mem a ∧
      MD.address m a = MD.address s.mem a

def exec (s : ListUse) : ListOp → Option ListUse
  | add md => do
    let (m, l) ← s.list.addMD s.mem md
    return ⟨m, l, insert md s.added⟩
  | del md => do
    let (m, l) ← s.list.delMD s.mem md
    return ⟨m, l, s.added \ {md}⟩
  | write m => some ⟨m, s.list, s.added⟩

/-- No header is put in front of a list that is not empty. -/
def NotInFront (s : ListUse) : ListOp → Prop
  | add md => s.list.head = 0 ∨ MD.address s.mem s.list.head < MD.address s.mem md
  | _ => True

end ListOp

/-- The uses of a list that is empty at first. -/
def listUses : System ListUse ListOp where
  init s := s.list = .empty ∧ s.added = ∅
  step s op t := op.Permitted s ∧ op.exec s = some t

/-- The nodes of the list are `L`, and both directions agree on that. -/
structure DoublyLinked (m : Mem) (l : MDList) (L : List ℕ) : Prop where
  forth : Chain (MD.next m) l.head L
  head_prev : l.head ≠ 0 → MD.prev m l.head = 0
  prev_next : ∀ a ∈ L, a ≠ l.tail → MD.prev m (MD.next m a) = a
  back : Chain (MD.prev m) l.tail L.reverse

def ListUse.WellLinked (s : ListUse) : Prop :=
  ∃ L, DoublyLinked s.mem s.list L

variable {s t : ListUse} {L pre post : List ℕ} {m : Mem} {l : MDList} {md : ℕ}

/-- Two chains make a doubly linked list. -/
theorem DoublyLinked.of_chains (hforth : Chain (MD.next m) l.head L)
    (hback : Chain (MD.prev m) l.tail L.reverse) : DoublyLinked m l L where
  forth := hforth
  head_prev := hforth.prev_head hback
  prev_next _ ha hne := hforth.prev_next hback ha hne
  back := hback

/-- The nodes of the list are the headers that have been added, sorted. -/
structure ListUse.Holds (s : ListUse) (L : List ℕ) : Prop where
  ordered : Ordered s.added s.mem s.list L
  mem : ∀ a ∈ s.added, a ∈ L
  apart : Apart s.added

/-! ### What a call leaves -/

theorem headD_reverse (L : List ℕ) : L.reverse.headD 0 = L.getLastD 0 := by
  rw [List.headD_eq_head?_getD, List.head?_reverse, List.getLastD_eq_getLast?]

namespace ListUse.Holds

/-- **A new header** goes between those of lower and of higher address. -/
theorem add (h : s.Holds L) (hmd : Addable s md) :
    ∃ pre post t, L = pre ++ post ∧ (ListOp.add md).exec s = some t ∧
      t.Holds (pre ++ md :: post) ∧
      Added (insert md s.added) s.mem t.mem t.list pre post md ∧
      ((pre = [] → post = []) ↔ (ListOp.add md).NotInFront s) := by
  have hord := h.ordered.mono fun a ha => Set.mem_insert_of_mem md (h.ordered.mem a ha)
  -- the header has a place of its own in the order
  have hne : ∀ a ∈ L, MD.address s.mem a ≠ MD.address s.mem md :=
    fun a ha => hmd.address a (h.ordered.mem a ha)
  obtain ⟨pre, post, rfl, -, hpre, hpost⟩ := orderedInsert_split h.ordered.sorted hne
  have hdet : Detached (insert md s.added) s.mem (pre ++ post) md :=
    ⟨Set.mem_insert md s.added, fun hmem => hmd.notMem (h.ordered.mem md hmem), hmd.next⟩
  obtain ⟨m', l', hrun, hadd⟩ := hord.addMD hmd.apart hdet hpre hpost
  refine ⟨pre, post, ⟨m', l', insert md s.added⟩, rfl, ?_, ⟨?_, ?_, hmd.apart⟩, hadd, ?_⟩
  · rw [ListOp.exec, hrun]
    rfl
  · exact hord.added hmd.apart hdet hpre hpost hadd
  · intro a ha
    rw [List.mem_append, List.mem_cons]
    obtain rfl | ha := Set.mem_insert_iff.mp ha
    · exact Or.inr (Or.inl rfl)
    · exact (List.mem_append.mp (h.mem a ha)).imp_right Or.inr
  · -- the head is the first of `pre`, or else the first of `post`
    have hhead := h.ordered.chain.start_eq
    have hzero := h.ordered.chain.start_eq_zero_iff
    cases pre with
    | cons a pre =>
      rw [List.cons_append, List.headD_cons] at hhead
      refine iff_of_true (fun hnil => absurd hnil (List.cons_ne_nil a pre)) (Or.inr ?_)
      rw [hhead]
      exact hpre a List.mem_cons_self
    | nil =>
      cases post with
      | nil => exact iff_of_true (fun _ => rfl) (Or.inl (hzero.mpr rfl))
      | cons c post =>
        rw [List.nil_append, List.headD_cons] at hhead
        apply iff_of_false (fun hnil => List.cons_ne_nil c post (hnil rfl))
        rintro (h0 | hlt)
        · exact List.cons_ne_nil c post (hzero.mp h0)
        · rw [hhead] at hlt
          exact hlt.asymm (hpost c List.mem_cons_self)

/-- **`delMD`** takes out a header that has been added, and leaves everything as it was for any
other. -/
theorem del (h : s.Holds L) (hmd : (ListOp.del md).Permitted s) :
    (md ∉ s.added ∧ (ListOp.del md).exec s = some s) ∨
      ∃ pre post t, L = pre ++ md :: post ∧ (ListOp.del md).exec s = some t ∧
        t.Holds (pre ++ post) ∧ Removed s.added s.mem t.mem t.list pre post md := by
  by_cases hadded : md ∈ s.added
  · right
    obtain ⟨pre, post, rfl⟩ := List.append_of_mem (h.mem md hadded)
    obtain ⟨m', l', hrun, hdel⟩ := h.ordered.delMD h.apart
    -- the header stood on the list once
    have hnotMem : md ∉ pre ++ post :=
      (List.nodup_cons.mp (List.nodup_middle.mp h.ordered.nodup)).1
    refine ⟨pre, post, ⟨m', l', s.added \ {md}⟩, rfl, ?_, ⟨?_, ?_, ?_⟩, hdel⟩
    · rw [ListOp.exec, hrun]
      rfl
    · have hord := h.ordered.removed hdel
      refine hord.mono fun a ha => ⟨hord.mem a ha, ?_⟩
      rintro rfl
      exact hnotMem ha
    · rintro a ⟨ha, hne⟩
      have hmem := h.mem a ha
      rw [List.mem_append, List.mem_cons] at hmem
      rw [List.mem_append]
      exact hmem.imp_right fun hor => hor.resolve_left hne
    · exact h.apart.mono Set.sdiff_subset
  · left
    refine ⟨hadded, ?_⟩
    -- no header on the list has this address, so that the loop finds none
    have hne : ∀ a ∈ L, MD.address s.mem md ≠ MD.address s.mem a :=
      fun a ha => (hmd hadded a (h.ordered.mem a ha)).symm
    rw [ListOp.exec, h.ordered.delMD_absent h.apart hne]
    exact congrArg (fun A => some (ListUse.mk s.mem s.list A)) (Set.sdiff_singleton_eq_self hadded)

/-- Writes of others. -/
theorem write (h : s.Holds L) (hm : (ListOp.write m).Permitted s) :
    (⟨m, s.list, s.added⟩ : ListUse).Holds L where
  ordered := h.ordered.congr (fun a ha => (hm a (h.ordered.mem a ha)).1)
    fun a ha => (hm a (h.ordered.mem a ha)).2.2
  mem := h.mem
  apart := h.apart

/-- Every call that is permitted returns, and leaves a sorted list. -/
theorem exec {op : ListOp} (h : s.Holds L) (hop : op.Permitted s) :
    ∃ t L', op.exec s = some t ∧ t.Holds L' := by
  cases op with
  | add md =>
    obtain ⟨pre, post, t, -, hexec, ht, -⟩ := h.add hop
    exact ⟨t, _, hexec, ht⟩
  | del md =>
    obtain ⟨-, hexec⟩ | ⟨pre, post, t, -, hexec, ht, -⟩ := h.del hop
    · exact ⟨s, L, hexec, h⟩
    · exact ⟨t, _, hexec, ht⟩
  | write m => exact ⟨_, L, rfl, h.write hop⟩

/-- Nothing has been added yet. -/
theorem of_init (h : listUses.init s) : s.Holds [] := by
  obtain ⟨hlist, hadded⟩ := h
  refine ⟨hlist ▸ Ordered.nil, ?_, ?_⟩
  · intro a ha
    rw [hadded] at ha
    exact absurd ha (Set.notMem_empty a)
  · rw [hadded]
    exact ⟨fun _ hp => absurd hp (Set.notMem_empty _), fun _ hp => absurd hp (Set.notMem_empty _),
      fun _ hp => absurd hp (Set.notMem_empty _)⟩

end ListUse.Holds

/-! ### The way back -/

/-- The nodes met from the tail along `prev` are those of `L` in reverse. -/
def ListUse.Back (s : ListUse) (L : List ℕ) : Prop :=
  Chain (MD.prev s.mem) s.list.tail L.reverse

namespace ListUse.Back

/-- A new header that is not put in front of others. -/
theorem added (h : s.Holds (pre ++ post)) (hback : s.Back (pre ++ post)) (hmd : Addable s md)
    (hadd : Added (insert md s.added) s.mem t.mem t.list pre post md)
    (hfront : pre = [] → post = []) : t.Back (pre ++ md :: post) := by
  have hmdH : md ∈ insert md s.added := Set.mem_insert md s.added
  have hprev : ∀ a ∈ insert md s.added,
      MD.prev t.mem a = insertLink (MD.prev s.mem) post.reverse pre.reverse md a := by
    intro a ha
    rw [hadd.prev a ha]
    split_ifs with hnil
    · -- the first header of all: its back link was cleared
      rw [hnil, hfront hnil, insertLink]
      by_cases hmda : md = a
      · rw [if_pos hmda, ← hmda, hmd.prev]
        rfl
      · simp [hmda]
    · rfl
  -- the nodes in reverse are distinct as well
  have hnodup : (post.reverse ++ pre.reverse).Nodup := by
    rw [← List.reverse_append, List.nodup_reverse]
    exact h.ordered.nodup
  have hnotMem : md ∉ post.reverse ++ pre.reverse := by
    rw [← List.reverse_append, List.mem_reverse]
    exact fun hmem => hmd.notMem (h.ordered.mem md hmem)
  unfold Back at hback ⊢
  rw [List.reverse_append] at hback
  -- along `prev` the new header goes between the same two
  have hchain := hback.insert hnodup hnotMem (hmd.apart.pos md hmdH)
  have hrev : (pre ++ md :: post).reverse = post.reverse ++ md :: pre.reverse := by simp
  rw [hadd.tail, ← headD_reverse, hrev]
  refine hchain.congr fun a ha => hprev a ?_
  rw [← hrev, List.mem_reverse, List.mem_append, List.mem_cons] at ha
  obtain ha | rfl | ha := ha
  · exact Set.mem_insert_of_mem md (h.ordered.mem a (List.mem_append_left post ha))
  · exact hmdH
  · exact Set.mem_insert_of_mem md (h.ordered.mem a (List.mem_append_right pre ha))

theorem removed (h : s.Holds (pre ++ md :: post)) (hback : s.Back (pre ++ md :: post))
    (hdel : Removed s.added s.mem t.mem t.list pre post md) : t.Back (pre ++ post) := by
  have hrev : (pre ++ md :: post).reverse = post.reverse ++ md :: pre.reverse := by simp
  have hnodup : (post.reverse ++ md :: pre.reverse).Nodup := by
    rw [← hrev, List.nodup_reverse]
    exact h.ordered.nodup
  unfold Back at hback ⊢
  rw [hrev] at hback
  -- along `prev` the header is taken out as well
  have hchain := hback.remove hnodup
  rw [hdel.tail, ← headD_reverse, List.reverse_append]
  refine hchain.congr fun a ha => hdel.prev a (h.ordered.mem a ?_)
  rw [List.mem_append, List.mem_reverse, List.mem_reverse] at ha
  rw [List.mem_append, List.mem_cons]
  exact ha.symm.imp_right Or.inr

theorem write (h : s.Holds L) (hback : s.Back L) (hm : (ListOp.write m).Permitted s) :
    (⟨m, s.list, s.added⟩ : ListUse).Back L := by
  apply Chain.congr hback
  intro a ha
  exact (hm a (h.ordered.mem a (List.mem_reverse.mp ha))).2.1

end ListUse.Back

/-! ### The runs -/

/-- The invariant: sorted along `next`, and the same nodes along `prev`. -/
def ListUse.Intact (s : ListUse) : Prop :=
  ∃ L, s.Holds L ∧ s.Back L

/-- **One step** that does not put a header in front of others. -/
theorem ListUse.Holds.step {op : ListOp} (h : s.Holds L) (hback : s.Back L)
    (hop : op.Permitted s) (hfront : op.NotInFront s) :
    ∃ t L', op.exec s = some t ∧ t.Holds L' ∧ t.Back L' := by
  cases op with
  | add md =>
    obtain ⟨pre, post, t, rfl, hexec, ht, hadd, hiff⟩ := h.add hop
    exact ⟨t, _, hexec, ht, .added h hback hop hadd (hiff.mpr hfront)⟩
  | del md =>
    obtain ⟨-, hexec⟩ | ⟨pre, post, t, rfl, hexec, ht, hdel⟩ := h.del hop
    · exact ⟨s, L, hexec, h, hback⟩
    · exact ⟨t, _, hexec, ht, .removed h hback hdel⟩
  | write m => exact ⟨_, L, rfl, h.write hop, .write h hback hop⟩

/-- **The invariant of the runs** in which no header is put in front of others. -/
theorem intact_of_reachable
    (h : (listUses.restrict fun s op => op.NotInFront s).Reachable s) : s.Intact := by
  refine h.invariant (fun s hinit => ⟨[], ?_⟩) fun s op t ih hstep => ?_
  · have hs := ListUse.Holds.of_init hinit
    exact ⟨hs, hs.ordered.tail⟩
  · obtain ⟨L, hs, hback⟩ := ih
    -- a step of the runs that are considered
    obtain ⟨hfront, hop, hexec⟩ := hstep
    obtain ⟨t', L', hexec', ht, hback'⟩ := hs.step hback hop hfront
    obtain rfl : t' = t := Option.some.inj (hexec'.symm.trans hexec)
    exact ⟨L', ht, hback'⟩

/-- A header put in front of others: the old head does not lead back to it. -/
theorem not_wellLinked_of_front {c : ℕ} (h : s.Holds (c :: post)) (hback : s.Back (c :: post))
    (ht : t.Holds (md :: c :: post))
    (hadd : Added (insert md s.added) s.mem t.mem t.list [] (c :: post) md) : ¬ t.WellLinked := by
  rintro ⟨L, hL⟩
  obtain rfl : md :: c :: post = L := ht.ordered.chain.unique hL.forth
  have ht₀ : Ordered t.added t.mem t.list ([] ++ md :: c :: post) := ht.ordered
  -- the node behind the new head should lead back to it
  have hprev := hL.prev_next md List.mem_cons_self ht₀.tail_ne.symm
  have hnext : MD.next t.mem md = c := hL.forth.2.2.1
  -- the back link of `c` is the one it had as the head
  have hcH : c ∈ insert md s.added :=
    Set.mem_insert_of_mem md (h.ordered.mem c List.mem_cons_self)
  have hhead : s.list.head = c := h.ordered.chain.1
  have hold : MD.prev s.mem c = 0 := by
    rw [← hhead]
    apply h.ordered.chain.prev_head hback
    rw [hhead]
    exact h.ordered.chain.2.1
  rw [hnext, hadd.prev c hcH, if_pos rfl, hold] at hprev
  exact ht.ordered.chain.2.1 hprev.symm

/-- **The two directions.** In every run in which no header is put in front of a list that is not
empty, the list is doubly linked after every call, and the next call returns. A new header leaves
it doubly linked if and only if it is not put in front. -/
theorem doublyLinked_runs (h : (listUses.restrict fun s op => op.NotInFront s).Reachable s) :
    s.WellLinked ∧
      (∀ op : ListOp, op.Permitted s → ∃ t, listUses.step s op t) ∧
      ∀ md t, listUses.step s (.add md) t → (t.WellLinked ↔ (ListOp.add md).NotInFront s) := by
  obtain ⟨L, hs, hback⟩ := intact_of_reachable h
  refine ⟨⟨L, .of_chains hs.ordered.chain hback⟩, fun op hop => ?_, fun md t hstep => ?_⟩
  · obtain ⟨t, -, hexec, -⟩ := hs.exec hop
    exact ⟨t, hop, hexec⟩
  · obtain ⟨hop, hexec⟩ := hstep
    obtain ⟨pre, post, t', rfl, hexec', ht, hadd, hiff⟩ := hs.add hop
    -- the call has one result
    obtain rfl : t' = t := Option.some.inj (hexec'.symm.trans hexec)
    rw [← hiff]
    constructor
    · intro hwell hnil
      cases post with
      | nil => rfl
      | cons c post =>
        subst hnil
        exact absurd hwell (not_wellLinked_of_front hs hback ht hadd)
    · intro hfront
      exact ⟨_, .of_chains ht.ordered.chain (ListUse.Back.added hs hback hop hadd hfront)⟩

/-! ### Two headers, in both orders -/

/-- Cleared headers at `64` and `128`, in front of their payloads. -/
def twoHeaders : Mem :=
  metaDataInit (metaDataInit (fun _ => 0) 64 128 true 0 0 112) 128 128 true 0 0 176

theorem apart_two : Apart ({64, 128} : Set ℕ) where
  sep := by
    rintro p (rfl | rfl) q (rfl | rfl)
    · exact Or.inl rfl
    · exact Or.inr (Or.inl (by decide))
    · exact Or.inr (Or.inr (by decide))
    · exact Or.inl rfl
  pos := by
    rintro p (rfl | rfl)
    · decide
    · decide
  lt := by
    rintro p (rfl | rfl)
    · decide
    · decide

theorem addable_two {A : Set ℕ} (hA : insert md A ⊆ {64, 128}) (hmd : md ∉ A) :
    Addable ⟨twoHeaders, l, A⟩ md := by
  have hfields : ∀ a ∈ ({64, 128} : Set ℕ), MD.next twoHeaders a = 0 ∧
      MD.prev twoHeaders a = 0 ∧ MD.address twoHeaders a = a + 48 := by
    rintro a (rfl | rfl)
    · decide
    · decide
  obtain ⟨hnext, hprev, haddr⟩ := hfields md (hA (Set.mem_insert md A))
  refine ⟨hmd, apart_two.mono hA, hnext, hprev, fun a ha heq => hmd ?_⟩
  obtain ⟨-, -, haddr'⟩ := hfields a (hA (Set.mem_insert_of_mem md ha))
  have hsum : a + 48 = md + 48 :=
    calc a + 48 = MD.address twoHeaders a := haddr'.symm
      _ = MD.address twoHeaders md := heq
      _ = md + 48 := haddr
  obtain rfl : a = md := Nat.add_right_cancel hsum
  exact ha

/-- Nothing has been added yet. -/
def noneAdded : ListUse := ⟨twoHeaders, .empty, ∅⟩

/-- The lower header has been added first, the higher one behind it. -/
def addedBehind : ListUse :=
  ⟨metadata.set .prev (metadata.set .next twoHeaders 64 128) 128 64, ⟨64, 128⟩,
    insert 128 (insert 64 ∅)⟩

/-- The higher header has been added first, the lower one in front of it. -/
def addedInFront : ListUse :=
  ⟨metadata.set .next twoHeaders 64 128, ⟨64, 128⟩, insert 64 (insert 128 ∅)⟩

theorem doublyLinked_runs_behind :
    (listUses.restrict fun s op => op.NotInFront s).Reachable addedBehind ∧
      addedBehind.WellLinked := by
  have hrun : (listUses.restrict fun s op => op.NotInFront s).Run noneAdded
      ([] ++ [.add 64] ++ [.add 128]) addedBehind := by
    refine .snoc (.snoc .nil ⟨Or.inl rfl, addable_two ?_ ?_, rfl⟩)
      ⟨Or.inr ?_, addable_two ?_ ?_, rfl⟩
    · simp
    · simp
    · decide
    · simp [noneAdded, Set.insert_subset_iff]
    · simp [noneAdded]
  have hreach : (listUses.restrict fun s op => op.NotInFront s).Reachable addedBehind :=
    ⟨noneAdded, _, ⟨rfl, rfl⟩, hrun⟩
  exact ⟨hreach, (doublyLinked_runs hreach).1⟩

/-- The header at `128` does not lead back to the one at `64`. -/
theorem front_leaves_prev :
    listUses.init noneAdded ∧ listUses.Run noneAdded ([] ++ [.add 128] ++ [.add 64]) addedInFront ∧
      MD.next addedInFront.mem 64 = 128 ∧ MD.prev addedInFront.mem 128 = 0 ∧
      ¬ addedInFront.WellLinked := by
  have hnext : MD.next addedInFront.mem 64 = 128 := by decide
  have hprev : MD.prev addedInFront.mem 128 = 0 := by decide
  refine ⟨⟨rfl, rfl⟩, .snoc (.snoc .nil ⟨addable_two ?_ ?_, rfl⟩) ⟨addable_two ?_ ?_, rfl⟩,
    hnext, hprev, ?_⟩
  · simp
  · simp
  · simp [noneAdded]
  · simp [noneAdded]
  · rintro ⟨L, hL⟩
    cases L with
    | nil => exact absurd hL.forth (Nat.succ_ne_zero 63)
    | cons a L =>
      obtain rfl : 64 = a := hL.forth.1
      have hback := hL.prev_next 64 List.mem_cons_self (by decide)
      rw [hnext, hprev] at hback
      exact absurd hback (by decide)

end OsHomework.Malloc3
