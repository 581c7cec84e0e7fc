import OsHomework.Malloc3.BackLinks

/-!
# An `MDList` as a sorted set of headers

What an `MDList` is for: it keeps a set of headers, and shows them in the order of their
addresses. `nodeSet` is that set under the calls of `listUses`, with no list and no memory in it.
The runs of an `MDList` refine it (`mdList_refines_sortedSet`): in the state a run ends in

* the headers met from the head along `next` are those of the set, sorted, and the tail is the last
  of them (`SortedListing`);
* every further call returns, and `delMD` of a header that is not in the set changes nothing;
* `findFreeSizedBlock` marks the lowest header of the set that fits (`IsLowestFit`, `Marked`), or
  returns null and changes nothing;
* a header that is taken out has cleared links, and keeps them until it is added again or someone
  else writes them.

The last point is about headers that are not on the list. It is what makes a deleted header fit to
be added again, since `addMD` does not clear the link of a new tail.
-/

namespace OsHomework.Malloc3

/-! ### The set -/

/-- What a call does to the set of the headers. -/
def ListOp.effect : ListOp → Set ℕ → Set ℕ
  | add md, A => insert md A
  | del md, A => A \ {md}
  | write _, A => A

/-- A set of headers that is empty at first. -/
def nodeSet : System (Set ℕ) ListOp where
  init A := A = ∅
  step A op B := B = op.effect A

/-- The list shows the headers `A` as `L`: sorted, from the head along `next` to the tail. -/
structure SortedListing (m : Mem) (l : MDList) (A : Set ℕ) (L : List ℕ) : Prop where
  chain : Chain (MD.next m) l.head L
  mem_iff : ∀ a, a ∈ L ↔ a ∈ A
  sorted : L.Pairwise fun a b => MD.address m a < MD.address m b
  tail : l.tail = L.getLastD 0
  /-- Both ends are null when there are no headers. -/
  ends : A = ∅ → l.head = 0 ∧ l.tail = 0

/-- Of the headers `A` that are free and large enough, `a` is the one of the lowest address. -/
structure IsLowestFit (m : Mem) (A : Set ℕ) (size a : ℕ) : Prop where
  mem : a ∈ A
  isFree : MD.isFree m a = true
  size_le : size ≤ MD.size m a
  lowest : ∀ b ∈ A, MD.isFree m b = true → size ≤ MD.size m b → MD.address m a ≤ MD.address m b

/-- The header `a` is marked as taken, and nothing else about the headers `A` has changed. -/
structure Marked (m m' : Mem) (A : Set ℕ) (a : ℕ) : Prop where
  isFree : MD.isFree m' a = false
  other : ∀ b ∈ A, ∀ f, (b = a → f ≠ Field.is_free) → metadata.get f m' b = metadata.get f m b
  bytes : ∀ x, x < a ∨ a + metadataSize ≤ x → m' x = m x

/-- A call that does not add the header `md` or another one over it, and a write that keeps its
links. -/
def LeavesAlone (md : ℕ) (s : ListUse) : ListOp → Prop
  | .add a => a + metadataSize ≤ md ∨ md + metadataSize ≤ a
  | .del _ => True
  | .write m => MD.next m md = MD.next s.mem md ∧ MD.prev m md = MD.prev s.mem md

/-- What the list does for someone who knows the set `A` only. -/
structure ListUse.RefinesSet (t : ListUse) (A : Set ℕ) : Prop where
  listing : ∃ L, SortedListing t.mem t.list A L
  returns : ∀ op : ListOp, op.Permitted t → ∃ u, listUses.step t op u
  absent : ∀ md u, md ∉ A → listUses.step t (.del md) u → u = t
  deleted : ∀ md u, md ∈ A → listUses.step t (.del md) u →
    ∀ ops v, (listUses.restrict (LeavesAlone md)).Run u ops v →
      MD.next v.mem md = 0 ∧ MD.prev v.mem md = 0
  find : ∀ size,
    (∃ a m, IsLowestFit t.mem A size a ∧
      t.list.findFreeSizedBlock t.mem size = some (MD.address t.mem a, m) ∧
      Marked t.mem m A a ∧ (ListOp.write m).Permitted t) ∨
    ((∀ a ∈ A, ¬(MD.isFree t.mem a = true ∧ size ≤ MD.size t.mem a)) ∧
      t.list.findFreeSizedBlock t.mem size = some (0, t.mem))

variable {s t u : ListUse} {A : Set ℕ} {L : List ℕ} {m : Mem} {l : MDList} {md a : ℕ} {op : ListOp}
  {ops : List ListOp}

theorem ListOp.exec_added (h : op.exec s = some t) : t.added = op.effect s.added := by
  cases op with
  | add md =>
    obtain ⟨r, -, hr⟩ := Option.bind_eq_some_iff.mp h
    obtain rfl := Option.some.inj hr
    rfl
  | del md =>
    obtain ⟨r, -, hr⟩ := Option.bind_eq_some_iff.mp h
    obtain rfl := Option.some.inj hr
    rfl
  | write m =>
    obtain rfl := Option.some.inj h
    rfl

/-! ### The listing and the search -/

namespace ListUse.Holds

theorem sortedListing (h : s.Holds L) : SortedListing s.mem s.list s.added L where
  chain := h.ordered.chain
  mem_iff a := ⟨h.ordered.mem a, h.mem a⟩
  sorted := h.ordered.sorted
  tail := h.ordered.tail
  ends hA := by
    -- a list of no headers is empty
    obtain rfl : L = [] := by
      apply List.eq_nil_iff_forall_not_mem.mpr
      intro a ha
      exact Set.notMem_empty a (hA ▸ h.ordered.mem a ha)
    exact ⟨h.ordered.chain, h.ordered.tail⟩

end ListUse.Holds

theorem MD.fitsRequest_iff {size : ℕ} :
    MD.fitsRequest m size a = true ↔ MD.isFree m a = true ∧ size ≤ MD.size m a := by
  rw [MD.fitsRequest, Bool.and_eq_true, decide_eq_true_iff]

/-- In a sorted list the first header that fits is the lowest. -/
theorem isLowestFit_of_find? {size : ℕ} (hL : SortedListing m l A L)
    (hfind : L.find? (MD.fitsRequest m size) = some a) : IsLowestFit m A size a := by
  obtain ⟨hfit, pre, post, rfl, hpre⟩ := List.find?_eq_some_iff_append.mp hfind
  obtain ⟨hfree, hsize⟩ := MD.fitsRequest_iff.mp hfit
  refine ⟨(hL.mem_iff a).mp (by simp), hfree, hsize, fun b hb hbfree hbsize => ?_⟩
  have hmem := (hL.mem_iff b).mpr hb
  rw [List.mem_append, List.mem_cons] at hmem
  obtain hmem | rfl | hmem := hmem
  · -- the headers before it do not fit
    have hpass := hpre b hmem
    rw [MD.fitsRequest_iff.mpr ⟨hbfree, hbsize⟩] at hpass
    exact absurd hpass Bool.false_ne_true
  · exact le_rfl
  · -- those behind it are higher
    have hsorted := (List.pairwise_append.mp hL.sorted).2.1
    exact (List.rel_of_pairwise_cons hsorted hmem).le

/-- Clearing the flag of a header. -/
theorem Apart.marked (hA : Apart A) (ha : a ∈ A) : Marked m (metadata.set .is_free m a 0) A a where
  isFree := by
    have hget : metadata.get .is_free (metadata.set .is_free m a 0) a = 0 :=
      Layout.get_set_same (by decide)
    simp [MD.isFree, hget]
  other b hb f hf := by
    by_cases hba : b = a
    · exact hA.get_set_other ha hb (hf hba).symm
    · exact Layout.get_set_of_apart ((hA.sep a ha b hb).resolve_left fun heq => hba heq.symm)
  bytes _ hx := Layout.set_apply_out hx

/-- The flag is none of what the list is made of: a search may come between any two calls. -/
theorem Marked.permitted (h : Marked s.mem m s.added a) : (ListOp.write m).Permitted s := by
  intro b hb
  -- no link and no address has changed
  have hother : ∀ f, f ≠ Field.is_free → metadata.get f m b = metadata.get f s.mem b :=
    fun f hf => h.other b hb f fun _ => hf
  exact ⟨hother .next Field.noConfusion, hother .prev Field.noConfusion,
    hother .address Field.noConfusion⟩

/-- **`findFreeSizedBlock`** on the set of the headers. -/
theorem ListUse.Holds.find (h : s.Holds L) (size : ℕ) :
    (∃ a m, IsLowestFit s.mem s.added size a ∧
      s.list.findFreeSizedBlock s.mem size = some (MD.address s.mem a, m) ∧
      Marked s.mem m s.added a ∧ (ListOp.write m).Permitted s) ∨
    ((∀ a ∈ s.added, ¬(MD.isFree s.mem a = true ∧ size ≤ MD.size s.mem a)) ∧
      s.list.findFreeSizedBlock s.mem size = some (0, s.mem)) := by
  have hsearch := h.ordered.findFreeSizedBlock h.apart size
  cases hfind : L.find? (MD.fitsRequest s.mem size) with
  | none =>
    right
    rw [hfind] at hsearch
    refine ⟨fun a ha hfit => ?_, hsearch⟩
    exact List.find?_eq_none.mp hfind a (h.mem a ha) (MD.fitsRequest_iff.mpr hfit)
  | some a =>
    left
    rw [hfind] at hsearch
    have hlow := isLowestFit_of_find? h.sortedListing hfind
    have hmarked : Marked s.mem _ s.added a := h.apart.marked hlow.mem
    exact ⟨a, _, hlow, hsearch, hmarked, hmarked.permitted⟩

/-! ### Headers that are not on the list -/

/-- The header `md` is apart from those on the list, and its links are cleared. -/
structure ListUse.Off (s : ListUse) (md : ℕ) : Prop where
  apart : ∀ a ∈ s.added, a + metadataSize ≤ md ∨ md + metadataSize ≤ a
  next : MD.next s.mem md = 0
  prev : MD.prev s.mem md = 0

namespace ListUse.Off

/-- `delMD` leaves the header it takes out off the list. -/
theorem of_removed {pre post : List ℕ} (h : s.Holds (pre ++ md :: post))
    (hdel : Removed s.added s.mem t.mem t.list pre post md) (ht : t.added = s.added \ {md}) :
    t.Off md := by
  -- `delMD` has cleared both links
  have hmd : md ∈ s.added := h.ordered.mem md (List.mem_append_right pre List.mem_cons_self)
  refine ⟨fun a ha => ?_, ?_, ?_⟩
  · rw [ht] at ha
    exact (h.apart.sep a ha.1 md hmd).resolve_left ha.2
  · rw [hdel.next md hmd, removeLink, if_pos rfl]
  · rw [hdel.prev md hmd, removeLink, if_pos rfl]

/-- It stays there while only links of headers apart from it are written. -/
theorem of_writes {H : Set ℕ} {S : List ℕ} (h : s.Off md) (hw : LinkWrites H S s.mem t.mem)
    (hS : ∀ a ∈ S, a + metadataSize ≤ md ∨ md + metadataSize ≤ a)
    (ht : ∀ a ∈ t.added, a + metadataSize ≤ md ∨ md + metadataSize ≤ a) : t.Off md where
  apart := ht
  next := (hw.get_of_apart hS .next).trans h.next
  prev := (hw.get_of_apart hS .prev).trans h.prev

/-- **One step** that leaves a header off the list alone. -/
theorem step (hoff : s.Off md) (h : s.Holds L) (halone : LeavesAlone md s op)
    (hstep : listUses.step s op t) : t.Off md := by
  obtain ⟨hop, hexec⟩ := hstep
  have hadded := ListOp.exec_added hexec
  cases op with
  | add a =>
    obtain ⟨pre, post, t', rfl, hexec', -, hadd, -⟩ := h.add hop
    obtain rfl : t' = t := Option.some.inj (hexec'.symm.trans hexec)
    -- the new header and those on the list are apart from `md`
    refine hoff.of_writes hadd.writes (fun b hb => ?_) fun b hb => ?_
    · obtain rfl | hb := List.mem_cons.mp hb
      · exact halone
      · exact hoff.apart b (h.ordered.mem b hb)
    · rw [hadded] at hb
      obtain rfl | hb := Set.mem_insert_iff.mp hb
      · exact halone
      · exact hoff.apart b hb
  | del a =>
    obtain ⟨-, hexec'⟩ | ⟨pre, post, t', rfl, hexec', -, hdel⟩ := h.del hop
    · -- nothing was deleted
      obtain rfl : s = t := Option.some.inj (hexec'.symm.trans hexec)
      exact hoff
    · obtain rfl : t' = t := Option.some.inj (hexec'.symm.trans hexec)
      refine hoff.of_writes hdel.writes (fun b hb => hoff.apart b (h.ordered.mem b hb)) ?_
      intro b hb
      rw [hadded] at hb
      exact hoff.apart b hb.1
  | write m =>
    obtain rfl := Option.some.inj hexec
    exact ⟨hoff.apart, halone.1.trans hoff.next, halone.2.trans hoff.prev⟩

end ListUse.Off

/-! ### The runs -/

/-- The list is sorted, whatever its nodes are. -/
def ListUse.Sorted (s : ListUse) : Prop := ∃ L, s.Holds L

/-- **One step.** -/
theorem ListUse.Sorted.step (h : s.Sorted) (hstep : listUses.step s op t) : t.Sorted := by
  obtain ⟨L, hs⟩ := h
  obtain ⟨hop, hexec⟩ := hstep
  obtain ⟨t', L', hexec', ht⟩ := hs.exec hop
  obtain rfl : t' = t := Option.some.inj (hexec'.symm.trans hexec)
  exact ⟨L', ht⟩

/-- A list that is empty at first is sorted after every run. -/
theorem sorted_of_run (hinit : listUses.init s) (hrun : listUses.Run s ops t) : t.Sorted :=
  hrun.invariant (fun _ _ _ hs hstep => hs.step hstep) ⟨[], .of_init hinit⟩

/-- A sorted list that does not have the header `md`, with the links of `md` cleared. -/
structure ListUse.SortedWithout (md : ℕ) (s : ListUse) : Prop where
  sorted : s.Sorted
  off : s.Off md

/-- `delMD` of a header of the list. -/
theorem ListUse.Holds.deleted (h : s.Holds L) (hmd : md ∈ s.added)
    (hstep : listUses.step s (.del md) t) : t.SortedWithout md := by
  refine ⟨ListUse.Sorted.step ⟨L, h⟩ hstep, ?_⟩
  obtain ⟨hop, hexec⟩ := hstep
  obtain ⟨hnot, -⟩ | ⟨pre, post, t', rfl, hexec', -, hdel⟩ := h.del hop
  · exact absurd hmd hnot
  · obtain rfl : t' = t := Option.some.inj (hexec'.symm.trans hexec)
    exact .of_removed h hdel (ListOp.exec_added hexec)

/-- A deleted header stays off the list through every run that leaves it alone. -/
theorem ListUse.SortedWithout.run (h : s.SortedWithout md)
    (hrun : (listUses.restrict (LeavesAlone md)).Run s ops t) : t.SortedWithout md := by
  -- one step keeps both
  have hkept : ∀ s op t, s.SortedWithout md → (listUses.restrict (LeavesAlone md)).step s op t →
      t.SortedWithout md := by
    intro s op t hs hstep
    obtain ⟨L, hL⟩ := hs.sorted
    exact ⟨hs.sorted.step hstep.2, hs.off.step hL hstep.1 hstep.2⟩
  exact hrun.invariant hkept h

/-- In a state with a sorted list, the list does what the set of its headers says. -/
theorem ListUse.Holds.refinesSet (h : s.Holds L) : s.RefinesSet s.added where
  listing := ⟨L, h.sortedListing⟩
  returns op hop := by
    obtain ⟨t, -, hexec, -⟩ := h.exec hop
    exact ⟨t, hop, hexec⟩
  absent md u hmd hstep := by
    obtain ⟨hop, hexec⟩ := hstep
    obtain ⟨-, hexec'⟩ | ⟨pre, post, -, rfl, -⟩ := h.del hop
    · exact Option.some.inj (hexec.symm.trans hexec')
    · exact absurd (h.ordered.mem md (List.mem_append_right pre List.mem_cons_self)) hmd
  deleted md u hmd hstep ops v hrun := by
    -- the links are cleared by the call, and stay so along the run
    have hoff := ((h.deleted hmd hstep).run hrun).off
    exact ⟨hoff.next, hoff.prev⟩
  find := h.find

/-- **An `MDList` refines a sorted set of headers.** Every run of calls from an empty list is one of
the set, and the list it ends with does what the set says. -/
theorem mdList_refines_sortedSet (hinit : listUses.init s) (hrun : listUses.Run s ops t) :
    ∃ A, nodeSet.Run ∅ ops A ∧ t.RefinesSet A := by
  obtain ⟨L, ht⟩ := sorted_of_run hinit hrun
  -- the set is the one of the headers that have been added
  have hsim : ∃ A, nodeSet.Run ∅ ops A ∧ t.added = A := by
    refine hrun.simulate (R := fun s A => s.added = A) ?_ hinit.2
    rintro s op t A rfl ⟨-, hexec⟩
    exact ⟨op.effect s.added, rfl, ListOp.exec_added hexec⟩
  obtain ⟨A, hA, rfl⟩ := hsim
  exact ⟨t.added, hA, ht.refinesSet⟩

/-- Two headers, the lower one added first. -/
theorem mdList_refines_sortedSet_behind :
    listUses.init noneAdded ∧ listUses.Run noneAdded ([] ++ [.add 64] ++ [.add 128]) addedBehind ∧
      ∃ A, nodeSet.Run ∅ ([] ++ [.add 64] ++ [.add 128]) A ∧ addedBehind.RefinesSet A := by
  have hinit : listUses.init noneAdded := ⟨rfl, rfl⟩
  have hrun : listUses.Run noneAdded ([] ++ [.add 64] ++ [.add 128]) addedBehind := by
    refine .snoc (.snoc .nil ⟨addable_two ?_ ?_, rfl⟩) ⟨addable_two ?_ ?_, rfl⟩
    · simp
    · simp
    · simp [noneAdded, Set.insert_subset_iff]
    · simp [noneAdded]
  exact ⟨hinit, hrun, mdList_refines_sortedSet hinit hrun⟩

end OsHomework.Malloc3
