import OsHomework.Malloc3.Model
import Mathlib.Data.List.Sort
import Mathlib.Order.Interval.Finset.Nat

/-!
# `MDList` refines a sorted list of addresses

`Ordered H m l L` says that the headers reached from `l` in memory `m` are those at `L`, in
that order and in the order of their `address` fields, with `tail` the last of them. On such a list
`addMD` puts a header in its place and `delMD` takes one out (`Ordered.addMD`, `Ordered.delMD`).
What they leave is said by the links: those of one node more or one node less, along `next` and,
with the nodes in reverse, along `prev`. The one exception is a new head, which the old one does
not lead back to.

Both write only the links of the headers they handle: `LinkWrites` records that, so that whatever
else is kept in the same memory is known to stay.

The headers of the allocator lie in front of their payloads, and the payload is the address.
`IsList` is the case of such headers, where the order is that of the headers themselves
(`IsList.addMD`, `IsList.delMD`).

All headers that matter are supposed to lie apart from each other, on a set `H` of addresses; there
a write to one field of one header is an update of a single value (`next_set_next`).
-/

namespace OsHomework.Malloc3

variable {H : Set ℕ} {S L pre post : List ℕ} {m m' m'' : Mem} {l l' : MDList} {p q md c e v : ℕ}

/-- Headers at the addresses `H` do not overlap, and the addresses fit in a pointer. -/
structure Apart (H : Set ℕ) : Prop where
  sep : ∀ p ∈ H, ∀ q ∈ H, p = q ∨ p + metadataSize ≤ q ∨ q + metadataSize ≤ p
  pos : ∀ p ∈ H, p ≠ 0
  lt : ∀ p ∈ H, p + metadataSize < wordLimit

namespace Apart

theorem mono {H' : Set ℕ} (hH : Apart H) (hsub : H' ⊆ H) : Apart H' where
  sep p hp q hq := hH.sep p (hsub hp) q (hsub hq)
  pos p hp := hH.pos p (hsub hp)
  lt p hp := hH.lt p (hsub hp)

theorem lt_word (hH : Apart H) (hp : p ∈ H) : p < 256 ^ 8 := by
  have := hH.lt p hp
  simp only [wordLimit, metadataSize] at this
  omega

theorem get_set_self (hH : Apart H) (hp : p ∈ H) (hq : q ∈ H) {f : Field}
    (hv : v < 256 ^ metadata.width f) :
    metadata.get f (metadata.set f m p v) q = if p = q then v else metadata.get f m q := by
  split_ifs with hpq
  · rw [hpq]
    exact Layout.get_set_same hv
  · exact Layout.get_set_of_apart ((hH.sep p hp q hq).resolve_left hpq)

theorem next_set_next (hH : Apart H) (hp : p ∈ H) (hq : q ∈ H) (hv : v < 256 ^ 8) :
    MD.next (metadata.set .next m p v) q = if p = q then v else MD.next m q :=
  hH.get_set_self hp hq hv

theorem prev_set_prev (hH : Apart H) (hp : p ∈ H) (hq : q ∈ H) (hv : v < 256 ^ 8) :
    MD.prev (metadata.set .prev m p v) q = if p = q then v else MD.prev m q :=
  hH.get_set_self hp hq hv

theorem get_set_other (hH : Apart H) (hp : p ∈ H) (hq : q ∈ H) {f g : Field} (hfg : g ≠ f) :
    metadata.get f (metadata.set g m p v) q = metadata.get f m q :=
  Layout.get_set_other (hH.sep p hp q hq) hfg

theorem next_set_prev (hH : Apart H) (hp : p ∈ H) (hq : q ∈ H) :
    MD.next (metadata.set .prev m p v) q = MD.next m q := hH.get_set_other hp hq Field.noConfusion

theorem prev_set_next (hH : Apart H) (hp : p ∈ H) (hq : q ∈ H) :
    MD.prev (metadata.set .next m p v) q = MD.prev m q := hH.get_set_other hp hq Field.noConfusion

/-- The two writes at the end of `delMD`. -/
theorem next_clear (hH : Apart H) (hp : p ∈ H) (hq : q ∈ H) :
    MD.next (metadata.set .next (metadata.set .prev m p 0) p 0) q
      = if p = q then 0 else MD.next m q := by
  rw [hH.next_set_next hp hq (by decide), hH.next_set_prev hp hq]

theorem prev_clear (hH : Apart H) (hp : p ∈ H) (hq : q ∈ H) :
    MD.prev (metadata.set .next (metadata.set .prev m p 0) p 0) q
      = if p = q then 0 else MD.prev m q := by
  rw [hH.prev_set_next hp hq, hH.prev_set_prev hp hq (by decide)]

end Apart

/-- Between `m` and `m'` only links of the headers `S` were written. -/
structure LinkWrites (H : Set ℕ) (S : List ℕ) (m m' : Mem) : Prop where
  field : ∀ f, f ≠ Field.next → f ≠ Field.prev → ∀ q ∈ H, metadata.get f m' q = metadata.get f m q
  bytes : ∀ x, (∀ a ∈ S, x < a ∨ a + metadataSize ≤ x) → m' x = m x

namespace LinkWrites

theorem refl : LinkWrites H S m m := ⟨fun _ _ _ _ _ => rfl, fun _ _ => rfl⟩

theorem trans (h : LinkWrites H S m m') (h' : LinkWrites H S m' m'') : LinkWrites H S m m'' where
  field f hn hp q hq := (h'.field f hn hp q hq).trans (h.field f hn hp q hq)
  bytes x hx := (h'.bytes x hx).trans (h.bytes x hx)

theorem address (h : LinkWrites H S m m') (hq : q ∈ H) : MD.address m' q = MD.address m q :=
  h.field .address Field.noConfusion Field.noConfusion q hq

theorem set_next (hH : Apart H) (hp : p ∈ S) (hpH : p ∈ H) :
    LinkWrites H S m (metadata.set .next m p v) where
  field _ hn _ _ hq := hH.get_set_other hpH hq hn.symm
  bytes _ hx := Layout.set_apply_out (hx p hp)

theorem set_prev (hH : Apart H) (hp : p ∈ S) (hpH : p ∈ H) :
    LinkWrites H S m (metadata.set .prev m p v) where
  field _ _ hn _ hq := hH.get_set_other hpH hq hn.symm
  bytes _ hx := Layout.set_apply_out (hx p hp)

theorem clear (h : LinkWrites H S m m') (hH : Apart H) (hp : p ∈ S) (hpH : p ∈ H) :
    LinkWrites H S m (metadata.set .next (metadata.set .prev m' p 0) p 0) :=
  h.trans ((set_prev hH hp hpH).trans (set_next hH hp hpH))

/-- A header that lies apart from those that are handled keeps all its fields. -/
theorem get_of_apart (h : LinkWrites H S m m')
    (hq : ∀ a ∈ S, a + metadataSize ≤ q ∨ q + metadataSize ≤ a) (f : Field) :
    metadata.get f m' q = metadata.get f m q := by
  refine Layout.get_congr fun x hx => h.bytes x fun a ha => ?_
  -- every byte of the header at `q` lies outside the headers in `S`
  have h1 : q ≤ x := hx.1
  have h2 : x < q + metadataSize := hx.2
  exact (hq a ha).symm.imp h2.trans_le fun hle => hle.trans h1

/-- A header that is not handled keeps all its fields. -/
theorem get_eq (h : LinkWrites H S m m') (hH : Apart H) (hS : ∀ a ∈ S, a ∈ H) (hq : q ∈ H)
    (hqS : q ∉ S) (f : Field) : metadata.get f m' q = metadata.get f m q := by
  apply h.get_of_apart
  intro a ha
  exact (hH.sep a (hS a ha) q hq).resolve_left fun heq => hqS (heq ▸ ha)

end LinkWrites

/-- The list `l` holds the headers at `L`, sorted by their `address`. -/
structure Ordered (H : Set ℕ) (m : Mem) (l : MDList) (L : List ℕ) : Prop where
  chain : Chain (MD.next m) l.head L
  tail : l.tail = L.getLastD 0
  mem : ∀ a ∈ L, a ∈ H
  sorted : L.Pairwise fun a b => MD.address m a < MD.address m b

namespace Ordered

theorem nil : Ordered H m MDList.empty [] where
  chain := rfl
  tail := rfl
  mem _ ha := absurd ha List.not_mem_nil
  sorted := List.Pairwise.nil

theorem nodup (h : Ordered H m l L) : L.Nodup :=
  h.sorted.imp fun hab heq => Nat.ne_of_lt hab (congrArg (MD.address m) heq)

/-- The headers of a list are told apart by their addresses. -/
theorem address_inj (h : Ordered H m l L) {a b : ℕ} (ha : a ∈ L) (hb : b ∈ L)
    (heq : MD.address m a = MD.address m b) : a = b := by
  have hnodup : (L.map (MD.address m)).Nodup := List.pairwise_map.mpr (h.sorted.imp Nat.ne_of_lt)
  exact List.inj_on_of_nodup_map hnodup ha hb heq

/-- A list is shorter than the address space, so no traversal of it runs out of steps. -/
theorem length_lt (hH : Apart H) (h : Ordered H m l L) : L.length < wordLimit := by
  -- the headers are distinct addresses below the end of the address space
  have hsub : L.toFinset ⊆ Finset.Ioo 0 wordLimit := by
    intro a ha
    have haH := h.mem a (List.mem_toFinset.mp ha)
    rw [Finset.mem_Ioo]
    have h1 := hH.pos a haH
    have h2 := hH.lt a haH
    omega
  have hcard := Finset.card_le_card hsub
  rw [List.toFinset_card_of_nodup h.nodup, Nat.card_Ioo] at hcard
  simp only [wordLimit] at hcard ⊢
  omega

theorem isEmpty_iff (h : Ordered H m l L) : l.isEmpty = true ↔ L = [] := by
  rw [MDList.isEmpty, beq_iff_eq]
  exact h.chain.start_eq_zero_iff

theorem mono {H' : Set ℕ} (h : Ordered H m l L) (hmem : ∀ a ∈ L, a ∈ H') : Ordered H' m l L where
  chain := h.chain
  tail := h.tail
  mem := hmem
  sorted := h.sorted

/-- Writing no link and no address of the list's own headers. -/
theorem congr (h : Ordered H m l L) (hnext : ∀ a ∈ L, MD.next m' a = MD.next m a)
    (haddr : ∀ a ∈ L, MD.address m' a = MD.address m a) : Ordered H m' l L where
  chain := h.chain.congr hnext
  tail := h.tail
  mem := h.mem
  sorted := h.sorted.imp_of_mem fun {a b} ha hb hab => by rwa [haddr a ha, haddr b hb]

/-- What stands behind another header does not matter for the head. -/
theorem head_eq (h : Ordered H m l (pre ++ [e] ++ post)) (L' : List ℕ) :
    l.head = (pre ++ [e] ++ L').headD 0 := by
  rw [h.chain.start_eq]
  cases pre with
  | nil => rfl
  | cons d pre => rfl

/-- No header but the first is the head. -/
theorem head_ne (h : Ordered H m l (pre ++ [e] ++ c :: post)) : c ≠ l.head := by
  -- the head is one of the nodes before `c`
  rintro rfl
  have hchain := h.chain
  rw [List.append_assoc] at hchain
  have hmem : l.head ∈ pre ++ [e] := by
    cases pre with
    | nil => exact hchain.1 ▸ List.mem_cons_self
    | cons d pre => exact hchain.1 ▸ List.mem_cons_self
  exact List.disjoint_of_nodup_append h.nodup hmem List.mem_cons_self

/-- Only the last header is the tail. -/
theorem tail_ne (h : Ordered H m l (pre ++ md :: c :: post)) : l.tail ≠ md := by
  -- the tail is among the headers behind `md`
  have hlast : l.tail = (c :: post).getLast (List.cons_ne_nil c post) := by
    rw [h.tail]
    simp [List.getLastD_eq_getLast?, List.getLast?_eq_some_getLast]
  have hnotMem : md ∉ c :: post :=
    (List.nodup_cons.mp (List.nodup_append.mp h.nodup).2.1).1
  intro heq
  exact hnotMem (heq ▸ hlast ▸ List.getLast_mem _)

end Ordered

/-! ### Insertion -/

/-- Where a new element goes in a list that is sorted by the key `f`. -/
theorem orderedInsert_split {f : ℕ → ℕ} (hs : L.Pairwise fun a b => f a < f b)
    (hmd : ∀ a ∈ L, f a ≠ f md) :
    ∃ pre post, L = pre ++ post ∧
      L.orderedInsert (fun a b => f a < f b) md = pre ++ md :: post ∧
      (∀ a ∈ pre, f a < f md) ∧ ∀ c ∈ post, f md < f c := by
  induction L with
  | nil => exact ⟨[], [], rfl, rfl, by simp, by simp⟩
  | cons b L ih =>
    by_cases hb : f md < f b
    · -- all that follow are above `b`, and so above the new element
      refine ⟨[], b :: L, rfl, List.orderedInsert_cons_of_le _ L hb, by simp, fun c hc => ?_⟩
      obtain rfl | hc := List.mem_cons.mp hc
      · exact hb
      · exact hb.trans (List.rel_of_pairwise_cons hs hc)
    · obtain ⟨pre, post, rfl, hins, hpre, hpost⟩ :=
        ih hs.of_cons fun a ha => hmd a (List.mem_cons_of_mem b ha)
      refine ⟨b :: pre, post, rfl, ?_, fun a ha => ?_, hpost⟩
      · rw [List.orderedInsert_cons, if_neg hb, hins, List.cons_append]
      · obtain rfl | ha := List.mem_cons.mp ha
        · exact lt_of_le_of_ne (not_lt.mp hb) (hmd a List.mem_cons_self)
        · exact hpre a ha

/-- A header that is not on the list, with a cleared link. -/
structure Detached (H : Set ℕ) (m : Mem) (L : List ℕ) (md : ℕ) : Prop where
  mem : md ∈ H
  notMem : md ∉ L
  next : MD.next m md = 0

/-- What `addMD` leaves when `md` goes between `pre` and `post`. The links are those of one node
more, in both directions; but a new head leaves all the back links as they were. -/
structure Added (H : Set ℕ) (m m' : Mem) (l' : MDList) (pre post : List ℕ) (md : ℕ) : Prop where
  next : ∀ a ∈ H, MD.next m' a = insertLink (MD.next m) pre post md a
  prev : ∀ a ∈ H, MD.prev m' a =
    if pre = [] then MD.prev m a else insertLink (MD.prev m) post.reverse pre.reverse md a
  head : l'.head = (pre ++ md :: post).headD 0
  tail : l'.tail = (pre ++ md :: post).getLastD 0
  writes : LinkWrites H (md :: (pre ++ post)) m m'

section AddMD

/-- The loop of `addMD` stops at the first header above the new one. -/
theorem Ordered.scan_addMD (hH : Apart H) (h : Ordered H m l (pre ++ post))
    (hpre : ∀ a ∈ pre, MD.address m a < MD.address m md)
    (hpost : ∀ c ∈ post, MD.address m md < MD.address m c) :
    scan (MD.next m) (fun p => decide (MD.address m md < MD.address m p)) wordLimit 0 l.head
      = some (pre.getLastD 0, post.headD 0) := by
  -- the loop passes the headers of lower address
  have hpass : ∀ a ∈ pre, decide (MD.address m md < MD.address m a) = false :=
    fun a ha => decide_eq_false (hpre a ha).asymm
  have hlen := h.length_lt hH
  cases post with
  | nil =>
    -- no header is above the new one, so that the loop runs to the null link
    have hchain := h.chain
    rw [List.append_nil] at hchain hlen
    exact scan_miss hchain hpass hlen
  | cons c post =>
    rw [List.length_append] at hlen
    have hstop := decide_eq_true (hpost c List.mem_cons_self)
    exact scan_hit h.chain hpass hstop (Nat.lt_of_le_of_lt (Nat.le_add_right ..) hlen)

/-- The new head. -/
theorem Ordered.addMD_head (hH : Apart H) (h : Ordered H m l (c :: post)) (hmd : md ∈ H)
    (hpost : ∀ a ∈ c :: post, MD.address m md < MD.address m a) :
    ∃ m' l', l.addMD m md = some (m', l') ∧ Added H m m' l' [] (c :: post) md := by
  have hcH : c ∈ H := h.mem c List.mem_cons_self
  have hhead : l.head = c := h.chain.1
  have h₀ : Ordered H m l ([] ++ c :: post) := h
  have hscan := h₀.scan_addMD hH (by simp) hpost
  refine ⟨metadata.set .next m md c, ⟨md, l.tail⟩, ?_, fun a ha => ?_, fun a ha => ?_, rfl, ?_,
    .set_next hH List.mem_cons_self hmd⟩
  · rw [MDList.addMD, if_neg (mt h.isEmpty_iff.mp (List.cons_ne_nil _ _)), hscan]
    simp [hH.pos c hcH, hhead]
  · rw [hH.next_set_next hmd ha (hH.lt_word hcH), insertLink]
    simp
  · rw [hH.prev_set_next hmd ha, if_pos rfl]
  · rw [h.tail]
    simp

/-- Behind the header `e`. -/
theorem Ordered.addMD_behind (hH : Apart H) (h : Ordered H m l (pre ++ [e] ++ post))
    (hmd : Detached H m (pre ++ [e] ++ post) md)
    (hpre : ∀ a ∈ pre ++ [e], MD.address m a < MD.address m md)
    (hpost : ∀ a ∈ post, MD.address m md < MD.address m a) :
    ∃ m' l', l.addMD m md = some (m', l') ∧ Added H m m' l' (pre ++ [e]) post md := by
  have heL : e ∈ pre ++ [e] ++ post := by simp
  have heH : e ∈ H := h.mem e heL
  have hemd : e ≠ md := fun heq => hmd.notMem (heq ▸ heL)
  have hempty : ¬ l.isEmpty = true := mt h.isEmpty_iff.mp (List.ne_nil_of_mem heL)
  have hscan := h.scan_addMD hH hpre hpost
  rw [List.getLastD_concat] at hscan
  cases post with
  | nil =>
    -- the new tail, whose own link is left as it was
    refine ⟨metadata.set .prev (metadata.set .next m e md) md e, ⟨l.head, md⟩, ?_,
      fun a ha => ?_, fun a ha => ?_, h.head_eq [md], by simp, ?_⟩
    · rw [MDList.addMD, if_neg hempty, hscan]
      rfl
    · rw [hH.next_set_prev hmd.mem ha, hH.next_set_next heH ha (hH.lt_word hmd.mem), insertLink,
        List.getLast?_concat]
      by_cases hmda : md = a
      · rw [← hmda, if_neg hemd, if_pos rfl, hmd.next]
        rfl
      · simp only [hmda, if_false, Option.mem_some_iff]
    · rw [hH.prev_set_prev hmd.mem ha (hH.lt_word heH), hH.prev_set_next heH ha, insertLink]
      simp
    · exact (LinkWrites.set_next hH (List.mem_cons_of_mem md heL) heH).trans
        (LinkWrites.set_prev hH List.mem_cons_self hmd.mem)
  | cons c post =>
    have hcL : c ∈ pre ++ [e] ++ c :: post := List.mem_append_right _ List.mem_cons_self
    have hcH : c ∈ H := h.mem c hcL
    have hcmd : c ≠ md := fun heq => hmd.notMem (heq ▸ hcL)
    -- the four writes of the source, in its order
    set m₁ := metadata.set .next m e md with hm₁
    set m₂ := metadata.set .prev m₁ md e with hm₂
    set m₃ := metadata.set .next m₂ md c with hm₃
    set m₄ := metadata.set .prev m₃ c md with hm₄
    refine ⟨m₄, l, ?_, fun a ha => ?_, fun a ha => ?_, h.head_eq (md :: c :: post), ?_, ?_⟩
    · rw [MDList.addMD, if_neg hempty, hscan]
      simp [hH.pos c hcH, h.head_ne, hm₁, hm₂, hm₃, hm₄]
    · rw [hm₄, hH.next_set_prev hcH ha, hm₃, hH.next_set_next hmd.mem ha (hH.lt_word hcH), hm₂,
        hH.next_set_prev hmd.mem ha, hm₁, hH.next_set_next heH ha (hH.lt_word hmd.mem), insertLink,
        List.getLast?_concat]
      simp only [List.headD_cons, Option.mem_some_iff]
    · rw [hm₄, hH.prev_set_prev hcH ha (hH.lt_word hmd.mem), hm₃, hH.prev_set_next hmd.mem ha, hm₂,
        hH.prev_set_prev hmd.mem ha (hH.lt_word heH), hm₁, hH.prev_set_next heH ha, insertLink]
      by_cases hmda : md = a
      · simp [← hmda, hcmd]
      · simp [hmda]
    · rw [h.tail]
      simp
    · exact (LinkWrites.set_next hH (List.mem_cons_of_mem md heL) heH).trans
        ((LinkWrites.set_prev hH List.mem_cons_self hmd.mem).trans
          ((LinkWrites.set_next hH List.mem_cons_self hmd.mem).trans
            (LinkWrites.set_prev hH (List.mem_cons_of_mem md hcL) hcH)))

/-- **`addMD`** puts a header between those of lower and those of higher address. -/
theorem Ordered.addMD (hH : Apart H) (h : Ordered H m l (pre ++ post))
    (hmd : Detached H m (pre ++ post) md) (hpre : ∀ a ∈ pre, MD.address m a < MD.address m md)
    (hpost : ∀ a ∈ post, MD.address m md < MD.address m a) :
    ∃ m' l', l.addMD m md = some (m', l') ∧ Added H m m' l' pre post md := by
  obtain rfl | ⟨pre, e, rfl⟩ := List.eq_nil_or_concat' pre
  · cases post with
    | nil =>
      -- the first header of all: nothing is written
      refine ⟨m, ⟨md, md⟩, ?_, fun a _ => ?_, fun a _ => ?_, rfl, rfl, .refl⟩
      · rw [MDList.addMD, if_pos (h.isEmpty_iff.mpr rfl)]
      · by_cases hmda : md = a
        · rw [insertLink, if_pos hmda, ← hmda, hmd.next]
          rfl
        · simp [insertLink, hmda]
      · rw [if_pos rfl]
    | cons c post => exact h.addMD_head hH hmd.mem hpost
  · exact h.addMD_behind hH hmd hpre hpost

/-- The longer list is sorted as well. -/
theorem Ordered.added (hH : Apart H) (h : Ordered H m l (pre ++ post))
    (hmd : Detached H m (pre ++ post) md) (hpre : ∀ a ∈ pre, MD.address m a < MD.address m md)
    (hpost : ∀ a ∈ post, MD.address m md < MD.address m a) (hadd : Added H m m' l' pre post md) :
    Ordered H m' l' (pre ++ md :: post) := by
  have hmem : ∀ a ∈ pre ++ md :: post, a ∈ H := by
    intro a ha
    rw [List.mem_append, List.mem_cons] at ha
    obtain ha | rfl | ha := ha
    · exact h.mem a (List.mem_append_left post ha)
    · exact hmd.mem
    · exact h.mem a (List.mem_append_right pre ha)
  have hsorted : (pre ++ md :: post).Pairwise fun a b => MD.address m a < MD.address m b := by
    -- the new address lies between those of the two parts
    obtain ⟨h1, h2, h3⟩ := List.pairwise_append.mp h.sorted
    refine List.pairwise_append.mpr ⟨h1, List.pairwise_cons.mpr ⟨hpost, h2⟩, fun a ha c hc => ?_⟩
    obtain rfl | hc := List.mem_cons.mp hc
    · exact hpre a ha
    · exact h3 a ha c hc
  refine ⟨?_, hadd.tail, hmem, hsorted.imp_of_mem fun {a b} ha hb hab => ?_⟩
  · have hchain := h.chain.insert h.nodup hmd.notMem (hH.pos md hmd.mem)
    rw [hadd.head]
    exact hchain.congr fun a ha => hadd.next a (hmem a ha)
  · rwa [hadd.writes.address (hmem a ha), hadd.writes.address (hmem b hb)]

end AddMD

/-! ### Removal -/

/-- What `delMD` leaves of a list with `md` between `pre` and `post`: the links of one node less,
in both directions, and none in `md`. -/
structure Removed (H : Set ℕ) (m m' : Mem) (l' : MDList) (pre post : List ℕ) (md : ℕ) : Prop where
  next : ∀ a ∈ H, MD.next m' a = removeLink (MD.next m) pre post md a
  prev : ∀ a ∈ H, MD.prev m' a = removeLink (MD.prev m) post.reverse pre.reverse md a
  head : l'.head = (pre ++ post).headD 0
  tail : l'.tail = (pre ++ post).getLastD 0
  writes : LinkWrites H (pre ++ md :: post) m m'

/-- Of the header it is given, `delMD` looks at the `address` alone. -/
theorem MDList.delMD_congr (h : MD.address m p = MD.address m q) : l.delMD m p = l.delMD m q := by
  rw [MDList.delMD, MDList.delMD, h]

section DelMD

/-- `delMD` changes nothing if no header of the list has the `address`. -/
theorem Ordered.delMD_absent (hH : Apart H) (h : Ordered H m l L)
    (hmd : ∀ a ∈ L, MD.address m md ≠ MD.address m a) : l.delMD m md = some (m, l) := by
  by_cases hempty : L = []
  · rw [MDList.delMD, if_pos (h.isEmpty_iff.mpr hempty)]
  · -- the loop passes every header
    have hstop : ∀ a ∈ L, decide (MD.address m md = MD.address m a) = false :=
      fun a ha => decide_eq_false (hmd a ha)
    rw [MDList.delMD, if_neg (mt h.isEmpty_iff.mp hempty),
      scan_miss h.chain hstop (h.length_lt hH)]
    rfl

/-- The loop of `delMD` stops at the header itself. -/
theorem Ordered.scan_delMD (hH : Apart H) (h : Ordered H m l (pre ++ md :: post)) :
    scan (MD.next m) (fun p => decide (MD.address m md = MD.address m p)) wordLimit 0 l.head
      = some (pre.getLastD 0, md) := by
  have hmdL : md ∈ pre ++ md :: post := List.mem_append_right pre List.mem_cons_self
  have hpre : ∀ a ∈ pre, decide (MD.address m md = MD.address m a) = false := by
    intro a ha
    apply decide_eq_false
    -- two headers of one address would be one header
    intro heq
    have hmda := h.address_inj hmdL (List.mem_append_left _ ha) heq
    exact List.disjoint_of_nodup_append h.nodup ha (hmda ▸ List.mem_cons_self)
  have hlen := h.length_lt hH
  rw [List.length_append] at hlen
  exact scan_hit h.chain hpre (decide_eq_true rfl)
    (Nat.lt_of_le_of_lt (Nat.le_add_right ..) hlen)

/-- The only header. -/
theorem Ordered.delMD_only (hH : Apart H) (h : Ordered H m l [md]) :
    ∃ m' l', l.delMD m md = some (m', l') ∧ Removed H m m' l' [] [] md := by
  have hmdH : md ∈ H := h.mem md List.mem_cons_self
  have hhead : l.head = md := h.chain.1
  have htail : l.tail = md := h.tail
  have h₀ : Ordered H m l ([] ++ [md]) := h
  refine ⟨_, MDList.empty, ?_, fun a ha => ?_, fun a ha => ?_, rfl, rfl,
    LinkWrites.refl.clear hH List.mem_cons_self hmdH⟩
  · rw [MDList.delMD, if_neg (mt h.isEmpty_iff.mp (List.cons_ne_nil _ _)), h₀.scan_delMD hH]
    simp [hH.pos md hmdH, hhead, htail, MDList.isAlmostEmpty]
  · rw [hH.next_clear hmdH ha, removeLink]
    simp
  · rw [hH.prev_clear hmdH ha, removeLink]
    simp

/-- The head of a longer list. -/
theorem Ordered.delMD_head (hH : Apart H) (h : Ordered H m l (md :: c :: post)) :
    ∃ m' l', l.delMD m md = some (m', l') ∧ Removed H m m' l' [] (c :: post) md := by
  have hmdH : md ∈ H := h.mem md List.mem_cons_self
  have hcL : c ∈ md :: c :: post := List.mem_cons_of_mem md List.mem_cons_self
  have hcH : c ∈ H := h.mem c hcL
  have hhead : l.head = md := h.chain.1
  have hnext : MD.next m md = c := h.chain.2.2.1
  have h₀ : Ordered H m l ([] ++ md :: c :: post) := h
  refine ⟨metadata.set .next (metadata.set .prev (metadata.set .prev m c 0) md 0) md 0,
    ⟨c, l.tail⟩, ?_, fun a ha => ?_, fun a ha => ?_, rfl, ?_,
    (LinkWrites.set_prev hH hcL hcH).clear hH List.mem_cons_self hmdH⟩
  · rw [MDList.delMD, if_neg (mt h.isEmpty_iff.mp (List.cons_ne_nil _ _)), h₀.scan_delMD hH]
    simp [hH.pos md hmdH, hhead, h₀.tail_ne.symm, MDList.isAlmostEmpty, hnext]
  · rw [hH.next_clear hmdH ha, hH.next_set_prev hcH ha, removeLink]
    simp
  · rw [hH.prev_clear hmdH ha, hH.prev_set_prev hcH ha (by decide), removeLink]
    simp
  · rw [h.tail]
    simp

/-- The tail of a longer list. -/
theorem Ordered.delMD_tail (hH : Apart H) (h : Ordered H m l (pre ++ [e] ++ [md])) :
    ∃ m' l', l.delMD m md = some (m', l') ∧ Removed H m m' l' (pre ++ [e]) [] md := by
  have hmdL : md ∈ pre ++ [e] ++ [md] := by simp
  have hmdH : md ∈ H := h.mem md hmdL
  have heL : e ∈ pre ++ [e] ++ [md] := by simp
  have heH : e ∈ H := h.mem e heL
  have htail : l.tail = md := by
    rw [h.tail]
    simp
  refine ⟨metadata.set .next (metadata.set .prev (metadata.set .next m e 0) md 0) md 0,
    ⟨l.head, e⟩, ?_, fun a ha => ?_, fun a ha => ?_, by simpa using h.head_eq [], by simp,
    (LinkWrites.set_next hH heL heH).clear hH hmdL hmdH⟩
  · rw [MDList.delMD, if_neg (mt h.isEmpty_iff.mp (List.ne_nil_of_mem hmdL)), h.scan_delMD hH,
      List.getLastD_concat]
    simp [hH.pos md hmdH, h.head_ne, htail]
  · rw [hH.next_clear hmdH ha, hH.next_set_next heH ha (by decide), removeLink,
      List.getLast?_concat]
    simp only [List.headD_nil, Option.mem_some_iff]
  · rw [hH.prev_clear hmdH ha, hH.prev_set_next heH ha, removeLink]
    simp

/-- Between two headers. -/
theorem Ordered.delMD_between (hH : Apart H) (h : Ordered H m l (pre ++ [e] ++ md :: c :: post)) :
    ∃ m' l', l.delMD m md = some (m', l') ∧ Removed H m m' l' (pre ++ [e]) (c :: post) md := by
  have hmdL : md ∈ pre ++ [e] ++ md :: c :: post := by simp
  have hmdH : md ∈ H := h.mem md hmdL
  have heL : e ∈ pre ++ [e] ++ md :: c :: post := by simp
  have heH : e ∈ H := h.mem e heL
  have hcL : c ∈ pre ++ [e] ++ md :: c :: post := by simp
  have hcH : c ∈ H := h.mem c hcL
  have hemd : e ≠ md := fun heq =>
    List.disjoint_of_nodup_append h.nodup (heq ▸ by simp : md ∈ pre ++ [e]) List.mem_cons_self
  have hnext : MD.next m md = c := h.chain.next_eq.1
  -- the source reads the link of `md` again after the first write
  have hnext' : MD.next (metadata.set .next m e c) md = c := by
    rw [hH.next_set_next heH hmdH (hH.lt_word hcH), if_neg hemd, hnext]
  refine ⟨metadata.set .next
      (metadata.set .prev (metadata.set .prev (metadata.set .next m e c) c e) md 0) md 0,
    l, ?_, fun a ha => ?_, fun a ha => ?_, h.head_eq (c :: post), ?_,
    ((LinkWrites.set_next hH heL heH).trans (LinkWrites.set_prev hH hcL hcH)).clear hH hmdL hmdH⟩
  · rw [MDList.delMD, if_neg (mt h.isEmpty_iff.mp (List.ne_nil_of_mem hmdL)), h.scan_delMD hH,
      List.getLastD_concat]
    simp [hH.pos md hmdH, h.head_ne, h.tail_ne.symm, hnext, hnext']
  · rw [hH.next_clear hmdH ha, hH.next_set_prev hcH ha, hH.next_set_next heH ha (hH.lt_word hcH),
      removeLink, List.getLast?_concat]
    simp only [List.headD_cons, Option.mem_some_iff]
  · rw [hH.prev_clear hmdH ha, hH.prev_set_prev hcH ha (hH.lt_word heH), hH.prev_set_next heH ha,
      removeLink]
    simp
  · rw [h.tail]
    simp

/-- **`delMD`** of a header of the list takes it out. -/
theorem Ordered.delMD (hH : Apart H) (h : Ordered H m l (pre ++ md :: post)) :
    ∃ m' l', l.delMD m md = some (m', l') ∧ Removed H m m' l' pre post md := by
  obtain rfl | ⟨pre, e, rfl⟩ := List.eq_nil_or_concat' pre
  · cases post with
    | nil => exact h.delMD_only hH
    | cons c post => exact h.delMD_head hH
  · cases post with
    | nil => exact h.delMD_tail hH
    | cons c post => exact h.delMD_between hH

theorem Ordered.removed (h : Ordered H m l (pre ++ md :: post))
    (hdel : Removed H m m' l' pre post md) : Ordered H m' l' (pre ++ post) := by
  have hsub : (pre ++ post).Sublist (pre ++ md :: post) :=
    List.Sublist.append (List.Sublist.refl pre) (List.sublist_cons_self md post)
  have hmem : ∀ a ∈ pre ++ post, a ∈ H := fun a ha => h.mem a (hsub.subset ha)
  refine ⟨?_, hdel.tail, hmem, (h.sorted.sublist hsub).imp_of_mem fun {a b} ha hb hab => ?_⟩
  · rw [hdel.head]
    exact (h.chain.remove h.nodup).congr fun a ha => hdel.next a (hmem a ha)
  · rwa [hdel.writes.address (hmem a ha), hdel.writes.address (hmem b hb)]

end DelMD

/-! ### Search -/

/-- The test of `findFreeSizedBlock`. -/
def MD.fitsRequest (m : Mem) (requestedSize p : ℕ) : Bool :=
  MD.isFree m p && decide (requestedSize ≤ MD.size m p)

theorem MDList.findFreeSizedBlock_eq (requestedSize : ℕ) :
    l.findFreeSizedBlock m requestedSize =
      (scan (MD.next m) (MD.fitsRequest m requestedSize) wordLimit 0 l.head).bind fun r =>
        if r.2 = 0 then some (0, m)
        else some (MD.address (metadata.set .is_free m r.2 0) r.2, metadata.set .is_free m r.2 0) :=
  rfl

/-- **`findFreeSizedBlock`** takes the first header that fits. The flag is cleared before the
address is read; they are different fields. -/
theorem Ordered.findFreeSizedBlock (hH : Apart H) (h : Ordered H m l L) (requestedSize : ℕ) :
    l.findFreeSizedBlock m requestedSize = some ((L.find? (MD.fitsRequest m requestedSize)).elim
      (0, m) fun p => (MD.address m p, metadata.set .is_free m p 0)) := by
  have hlen := h.length_lt hH
  cases hfind : L.find? (MD.fitsRequest m requestedSize) with
  | none =>
    -- the loop runs to the null link
    rw [List.find?_eq_none] at hfind
    have hmiss : ∀ a ∈ L, MD.fitsRequest m requestedSize a = false :=
      fun a ha => Bool.eq_false_iff.mpr (hfind a ha)
    rw [MDList.findFreeSizedBlock_eq, scan_miss h.chain hmiss hlen]
    rfl
  | some p =>
    have hpH : p ∈ H := h.mem p (List.mem_of_find?_eq_some hfind)
    obtain ⟨hfit, pre, post, rfl, hpre⟩ := List.find?_eq_some_iff_append.mp hfind
    have hpass : ∀ a ∈ pre, MD.fitsRequest m requestedSize a = false :=
      fun a ha => by simpa using hpre a ha
    have haddr : MD.address (metadata.set .is_free m p 0) p = MD.address m p :=
      hH.get_set_other hpH hpH Field.noConfusion
    rw [List.length_append] at hlen
    rw [MDList.findFreeSizedBlock_eq,
      scan_hit h.chain hpass hfit (Nat.lt_of_le_of_lt (Nat.le_add_right ..) hlen)]
    simp [hH.pos p hpH, haddr]

/-! ### Headers that lie in front of their payload -/

/-- The list `l` holds the headers at `L`, sorted, each with its own payload as its address. -/
structure IsList (H : Set ℕ) (m : Mem) (l : MDList) (L : List ℕ) : Prop where
  chain : Chain (MD.next m) l.head L
  tail : l.tail = L.getLastD 0
  mem : ∀ a ∈ L, a ∈ H
  sorted : L.Pairwise (· < ·)
  address : ∀ a ∈ L, MD.address m a = a + metadataSize

/-- What `addMD` may rely on: a header apart from the list's, with a cleared link. -/
structure Insertable (H : Set ℕ) (m : Mem) (L : List ℕ) (md : ℕ) : Prop where
  mem : md ∈ H
  notMem : md ∉ L
  next : MD.next m md = 0
  address : MD.address m md = md + metadataSize

/-- Of headers in front of their payloads, the addresses are in the order of the headers. -/
theorem address_lt_iff {a b : ℕ} (ha : MD.address m a = a + metadataSize)
    (hb : MD.address m b = b + metadataSize) : MD.address m a < MD.address m b ↔ a < b := by
  rw [ha, hb]
  exact Nat.add_lt_add_iff_right

namespace IsList

theorem nil : IsList H m MDList.empty [] where
  chain := rfl
  tail := rfl
  mem _ ha := absurd ha List.not_mem_nil
  sorted := List.Pairwise.nil
  address _ ha := absurd ha List.not_mem_nil

theorem ordered (h : IsList H m l L) : Ordered H m l L where
  chain := h.chain
  tail := h.tail
  mem := h.mem
  sorted := h.sorted.imp_of_mem fun ha hb hab =>
    (address_lt_iff (h.address _ ha) (h.address _ hb)).mpr hab

theorem of_ordered (h : Ordered H m l L) (haddr : ∀ a ∈ L, MD.address m a = a + metadataSize) :
    IsList H m l L where
  chain := h.chain
  tail := h.tail
  mem := h.mem
  sorted := h.sorted.imp_of_mem fun ha hb hab =>
    (address_lt_iff (haddr _ ha) (haddr _ hb)).mp hab
  address := haddr

theorem nodup (h : IsList H m l L) : L.Nodup := h.ordered.nodup

theorem length_lt (hH : Apart H) (h : IsList H m l L) : L.length < wordLimit :=
  h.ordered.length_lt hH

theorem mono {H' : Set ℕ} (h : IsList H m l L) (hmem : ∀ a ∈ L, a ∈ H') : IsList H' m l L where
  chain := h.chain
  tail := h.tail
  mem := hmem
  sorted := h.sorted
  address := h.address

/-- Writing no link of the list's own headers. -/
theorem congr (h : IsList H m l L) (hnext : ∀ a ∈ L, MD.next m' a = MD.next m a)
    (haddr : ∀ a ∈ L, MD.address m' a = MD.address m a) : IsList H m' l L where
  chain := h.chain.congr hnext
  tail := h.tail
  mem := h.mem
  sorted := h.sorted
  address a ha := (haddr a ha).trans (h.address a ha)

/-- **`addMD`** inserts in order and writes links only. -/
theorem addMD (hH : Apart H) (h : IsList H m l L) (hmd : Insertable H m L md) :
    ∃ m' l', l.addMD m md = some (m', l') ∧ IsList H m' l' (L.orderedInsert (· < ·) md) ∧
      LinkWrites H (md :: L) m m' := by
  -- addresses and headers come in the same order, so that one place is right for both
  have hne : ∀ a ∈ L, id a ≠ id md := fun a ha (heq : a = md) => hmd.notMem (heq ▸ ha)
  obtain ⟨pre, post, rfl, hins, hpre, hpost⟩ := orderedInsert_split h.sorted hne
  have hdet : Detached H m (pre ++ post) md := ⟨hmd.mem, hmd.notMem, hmd.next⟩
  have hpre' : ∀ a ∈ pre, MD.address m a < MD.address m md := fun a ha =>
    (address_lt_iff (h.address a (List.mem_append_left post ha)) hmd.address).mpr (hpre a ha)
  have hpost' : ∀ a ∈ post, MD.address m md < MD.address m a := fun a ha =>
    (address_lt_iff hmd.address (h.address a (List.mem_append_right pre ha))).mpr (hpost a ha)
  obtain ⟨m', l', hrun, hadd⟩ := h.ordered.addMD hH hdet hpre' hpost'
  have hord := h.ordered.added hH hdet hpre' hpost' hadd
  simp only [id] at hins
  rw [hins]
  refine ⟨m', l', hrun, of_ordered hord fun a ha => ?_, hadd.writes⟩
  rw [hadd.writes.address (hord.mem a ha)]
  rw [List.mem_append, List.mem_cons] at ha
  obtain ha | rfl | ha := ha
  · exact h.address a (List.mem_append_left post ha)
  · exact hmd.address
  · exact h.address a (List.mem_append_right pre ha)

/-- `delMD` changes nothing if no header of the list has the `address`. -/
theorem delMD_of_address (hH : Apart H) (h : IsList H m l L)
    (hmd : ∀ a ∈ L, MD.address m md ≠ a + metadataSize) : l.delMD m md = some (m, l) := by
  apply h.ordered.delMD_absent hH
  intro a ha
  rw [h.address a ha]
  exact hmd a ha

/-- **`delMD`** of a header of the list removes it and clears its link, and writes links only. -/
theorem delMD (hH : Apart H) (h : IsList H m l L) (hmd : md ∈ L) :
    ∃ m' l', l.delMD m md = some (m', l') ∧ IsList H m' l' (L.erase md) ∧ LinkWrites H L m m' ∧
      MD.next m' md = 0 := by
  have hmdH := h.mem md hmd
  obtain ⟨pre, post, rfl⟩ := List.append_of_mem hmd
  -- the header stands on the list once
  have hmdpre : md ∉ pre := fun hpre =>
    List.disjoint_of_nodup_append h.nodup hpre List.mem_cons_self
  rw [List.erase_append_right _ hmdpre, List.erase_cons_head]
  obtain ⟨m', l', hrun, hdel⟩ := h.ordered.delMD hH
  have hord := h.ordered.removed hdel
  refine ⟨m', l', hrun, of_ordered hord fun a ha => ?_, hdel.writes, ?_⟩
  · rw [hdel.writes.address (hord.mem a ha)]
    apply h.address a
    rw [List.mem_append, List.mem_cons]
    exact (List.mem_append.mp ha).imp_right Or.inr
  · rw [hdel.next md hmdH, removeLink, if_pos rfl]

end IsList

end OsHomework.Malloc3
