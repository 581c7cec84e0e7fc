import OsHomework.Malloc2.Blocks

/-!
# Heap integrity of `malloc_2`

What a client sees of an allocator is a map from the pointers it holds to the contents of their
payloads. `AbsStep` says what each event may do to that map: an allocation adds one pointer, a free
removes one, a reallocation moves one with its contents, a write changes one byte of one payload,
and nothing else changes at all. `heap_integrity` shows that the byte memory, with its headers
between the payloads, is simulated by it along every run.
-/

namespace OsHomework.Malloc2

open Heap

/-! ### The abstract heap -/

/-- The contents of each live payload. -/
abbrev AbsHeap := ℕ → Option (List UInt8)

/-- What an event does to the contents the client holds. -/
inductive AbsStep : AbsHeap → Event → AbsHeap → Prop
  /-- A call that returns `NULL` does nothing. -/
  | refused {A : AbsHeap} {c : Call} (hc : c.returns = true) : AbsStep A (.call c 0) A
  | smalloc {A : AbsHeap} {outcome : Option ℕ} {size p : ℕ} {content : List UInt8}
      (hp : p ≠ 0) (hnew : A p = none) (hlen : size ≤ content.length) :
      AbsStep A (.call (.smalloc outcome size) p) (Function.update A p (some content))
  /-- Unless the product wraps, the requested bytes are zero. -/
  | scalloc {A : AbsHeap} {outcome : Option ℕ} {num size p : ℕ} {content : List UInt8}
      (hp : p ≠ 0) (hnew : A p = none)
      (hzero : num * size < wordLimit →
        content.take (num * size) = List.replicate (num * size) 0) :
      AbsStep A (.call (.scalloc outcome num size) p) (Function.update A p (some content))
  | sfreeNull {A : AbsHeap} : AbsStep A (.call (.sfree 0) 0) A
  | sfree {A : AbsHeap} {p : ℕ} {content : List UInt8} (hp : A p = some content) :
      AbsStep A (.call (.sfree p) 0) (Function.update A p none)
  | sreallocNull {A : AbsHeap} {outcome : Option ℕ} {beyond : ℕ → UInt8} {size p : ℕ}
      {content : List UInt8} (hp : p ≠ 0) (hnew : A p = none) (hlen : size ≤ content.length) :
      AbsStep A (.call (.srealloc outcome beyond 0 size) p) (Function.update A p (some content))
  /-- The old contents are a part of the new ones, at the same place or at a new one. -/
  | srealloc {A : AbsHeap} {outcome : Option ℕ} {beyond : ℕ → UInt8} {oldp size p : ℕ}
      {old content : List UInt8} (hold : A oldp = some old) (hp : p ≠ 0)
      (hnew : p = oldp ∨ A p = none) (hlen : size ≤ content.length)
      (hkept : content.take old.length = old) :
      AbsStep A (.call (.srealloc outcome beyond oldp size) p)
        (Function.update (Function.update A oldp none) p (some content))
  | write {A : AbsHeap} {p i : ℕ} {v : UInt8} {content : List UInt8}
      (hp : A p = some content) (hi : i < content.length) :
      AbsStep A (.write p i v) (Function.update A p (some (content.set i v)))

/-- The abstract heap as a system: it starts empty. -/
def abstractHeap : System AbsHeap Event where
  init A := A = fun _ => none
  step := AbsStep

/-! ### The abstraction relation -/

/-- The heap holds the blocks `bs`, and the payloads of those in use are what `A` says. -/
structure Holds (s : Heap) (bs : List Blk) (A : AbsHeap) : Prop where
  repr : s.Repr bs
  content : ∀ b ∈ bs, b.isFree = false → A b.payload = some (s.mem.bytes b.payload b.size)
  block : ∀ p, A p ≠ none → ∃ b ∈ bs, b.isFree = false ∧ b.payload = p

namespace Holds

variable {s s' s₁ : Heap} {bs bs₁ : List Blk} {A : AbsHeap} {b c : Blk} {size p : ℕ}

/-- A payload has no header in it. -/
theorem payload_subset (h : s.Repr bs) (hb : b ∈ bs) :
    Set.Ico b.payload (b.payload + b.size) ⊆ (headers bs)ᶜ := by
  rintro x ⟨h1, h2⟩ ⟨c, hc, h3, h4⟩
  by_cases hbc : b = c
  · rw [hbc] at h1
    omega
  · -- the header of another block lies outside this one
    have := h.disjoint hb hc hbc
    simp only [Blk.fin, Blk.payload] at this h1 h2 h4
    omega

/-- Payloads are read outside the headers. -/
theorem bytes_eq (h : s.Repr bs) (hb : b ∈ bs) {m m' : Mem} (hm : Set.EqOn m m' (headers bs)ᶜ) :
    m.bytes b.payload b.size = m'.bytes b.payload b.size :=
  Mem.bytes_congr (hm.mono (payload_subset h hb))

theorem eq_of_payload (h : s.Repr bs) (hb : b ∈ bs) (hc : c ∈ bs) (heq : b.payload = c.payload) :
    b = c := h.eq_of_addr hb hc (Nat.add_right_cancel heq)

/-- A block the allocation path leaves in use was in use before, or is the one it returns. -/
theorem inUse_or_new (ha : Allocates s bs size p s₁ bs₁) (hc : c ∈ bs₁)
    (hfree : c.isFree = false) : c.payload = p ∨ c ∈ bs := by
  cases ha with
  | refused => exact Or.inr hc
  | @reused b hfind =>
    obtain ⟨d, hd, rfl⟩ := mem_markFree.mp hc
    split_ifs with hda
    · exact Or.inl (congrArg (· + metadataSize) hda)
    · exact Or.inr hd
  | grown =>
    obtain hc | hc := List.mem_append.mp hc
    · exact Or.inr hc
    · obtain rfl := List.mem_singleton.mp hc
      exact Or.inl rfl

/-- Allocating adds one pointer, and changes no contents. -/
theorem allocates (h : Holds s bs A) (ha : Allocates s bs size p s₁ bs₁) (hp : p ≠ 0) :
    A p = none ∧ ∃ b ∈ bs₁, b.payload = p ∧ b.isFree = false ∧ size ≤ b.size ∧
      Holds s₁ bs₁ (Function.update A p (some (s₁.mem.bytes p b.size))) := by
  have hr := ha.repr h.repr
  obtain ⟨b, hb, rfl, hbfree, hsize, hnew⟩ := ha.exists_block h.repr hp
  -- a block in use would have been in the list before
  have hnone : A b.payload = none := by
    by_contra hne
    obtain ⟨c, hc, hcfree, hcp⟩ := h.block _ hne
    exact hnew c hc hcfree hcp
  refine ⟨hnone, b, hb, rfl, hbfree, hsize, hr, fun c hc hcfree => ?_, fun q hq => ?_⟩
  · obtain hcp | hcold := inUse_or_new ha hc hcfree
    · obtain rfl := eq_of_payload hr hc hb hcp
      rw [Function.update_self]
    · -- an old block: its pointer is another one, and its bytes are kept
      have hcp : c.payload ≠ b.payload := hnew c hcold hcfree
      rw [Function.update_of_ne hcp, h.content c hcold hcfree, bytes_eq hr hc ha.mem_eqOn]
  · by_cases hqb : q = b.payload
    · exact ⟨b, hb, hbfree, hqb.symm⟩
    · rw [Function.update_of_ne hqb] at hq
      obtain ⟨c, hc, hcfree, rfl⟩ := h.block q hq
      exact ⟨c, ha.inUse_mem hc hcfree, hcfree, rfl⟩

/-- Writing inside one payload changes the contents of that one only. -/
theorem of_payload (h : Holds s bs A) (hb : b ∈ bs) (hbfree : b.isFree = false) {m : Mem}
    (hm : ∀ x, x < b.payload ∨ b.fin ≤ x → m x = s.mem x) :
    Holds { s with mem := m } bs
      (Function.update A b.payload (some (m.bytes b.payload b.size))) := by
  refine ⟨h.repr.of_payload hb hm, fun c hc hcfree => ?_, fun q hq => ?_⟩
  · by_cases hcb : c = b
    · rw [hcb, Function.update_self]
    · have hcp : c.payload ≠ b.payload := fun heq => hcb (eq_of_payload h.repr hc hb heq)
      rw [Function.update_of_ne hcp, h.content c hc hcfree]
      refine congrArg some (Mem.bytes_congr fun x hx => (hm x ?_).symm)
      have := h.repr.disjoint hc hb hcb
      obtain ⟨h1, h2⟩ := hx
      simp only [Blk.fin, Blk.payload] at this h1 h2 ⊢
      omega
  · by_cases hqb : q = b.payload
    · exact ⟨b, hb, hbfree, hqb.symm⟩
    · rw [Function.update_of_ne hqb] at hq
      exact h.block q hq

/-- Freeing removes one pointer, and changes no contents. -/
theorem sfree (h : Holds s bs A) (hb : b ∈ bs) :
    Holds (s.sfree b.payload) (markFree b.addr true bs) (Function.update A b.payload none) := by
  have hr := h.repr.sfree hb
  have hmem : Set.EqOn (s.sfree b.payload).mem s.mem (headers bs)ᶜ := h.repr.sfree_mem_eqOn hb
  refine ⟨hr, fun c hc hcfree => ?_, fun q hq => ?_⟩
  · obtain ⟨d, hd, rfl⟩ := mem_markFree.mp hc
    split_ifs at hcfree ⊢ with hda
    -- a block that is still in use is not the one that was freed
    have hdp : d.payload ≠ b.payload := fun heq => hda (Nat.add_right_cancel heq)
    rw [Function.update_of_ne hdp, h.content d hd hcfree, bytes_eq h.repr hd hmem]
  · have hqb : q ≠ b.payload := by
      rintro rfl
      exact hq (Function.update_self ..)
    rw [Function.update_of_ne hqb] at hq
    obtain ⟨c, hc, hcfree, rfl⟩ := h.block q hq
    refine ⟨c, mem_markFree.mpr ⟨c, hc, (if_neg fun heq => hqb ?_).symm⟩, hcfree, rfl⟩
    exact congrArg (· + metadataSize) heq

end Holds

/-! ### Each call -/

section Calls

variable {s s' : Heap} {bs : List Blk} {A : AbsHeap} {b : Blk} {ret : ℕ}

/-- A returned pointer is new, and its contents hold the request. -/
theorem Holds.smalloc (h : Holds s bs A) {outcome : Option ℕ} {size : ℕ}
    (hexec : s.smalloc outcome size = some (ret, s')) :
    (ret = 0 ∧ s' = s) ∨
      ret ≠ 0 ∧ A ret = none ∧ ∃ content bs', size ≤ content.length ∧
        Holds s' bs' (Function.update A ret (some content)) := by
  obtain heq | ⟨p, s₁, bs₁, ha, heq⟩ := h.repr.smalloc outcome size
  all_goals
    rw [hexec, Option.some.injEq, Prod.mk.injEq] at heq
    obtain ⟨rfl, rfl⟩ := heq
  · exact Or.inl ⟨rfl, rfl⟩
  · by_cases hret : ret = 0
    · exact Or.inl ⟨hret, (ha.eq_of_null h.repr hret).1⟩
    · obtain ⟨hnone, b, -, -, -, hsize, hholds⟩ := h.allocates ha hret
      exact Or.inr ⟨hret, hnone, _, _, by rwa [Mem.length_bytes], hholds⟩

theorem Holds.scalloc (h : Holds s bs A) {outcome : Option ℕ} {num size : ℕ}
    (hexec : s.scalloc outcome num size = some (ret, s')) :
    (ret = 0 ∧ s' = s) ∨
      ret ≠ 0 ∧ A ret = none ∧ ∃ content bs',
        (num * size < wordLimit →
          content.take (num * size) = List.replicate (num * size) 0) ∧
        Holds s' bs' (Function.update A ret (some content)) := by
  obtain heq | ⟨p, s₁, bs₁, ha, heq⟩ := h.repr.scalloc outcome num size
  all_goals
    rw [hexec, Option.some.injEq, Prod.mk.injEq] at heq
    obtain ⟨rfl, rfl⟩ := heq
  · exact Or.inl ⟨rfl, rfl⟩
  by_cases hret : ret = 0
  · rw [if_pos hret]
    exact Or.inl ⟨hret, (ha.eq_of_null h.repr hret).1⟩
  · rw [if_neg hret]
    obtain ⟨hnone, b, hb, rfl, hbfree, hsize, hholds⟩ := h.allocates ha hret
    -- `memset` stays inside the payload
    have hset := hholds.of_payload hb hbfree fun x hx =>
      Mem.fill_apply_out (n := size * num % wordLimit) (b := 0)
        (show x < b.payload ∨ b.payload + size * num % wordLimit ≤ x by
          simp only [Blk.payload, Blk.fin] at hx ⊢
          omega)
    rw [Function.update_idem] at hset
    refine Or.inr ⟨hret, hnone, _, _, fun hlt => ?_, hset⟩
    -- without a wrap the product is the number of bytes that were cleared
    have htotal : size * num % wordLimit = num * size := by
      rw [Nat.mul_comm, Nat.mod_eq_of_lt hlt]
    rw [htotal] at hsize ⊢
    rw [Mem.take_bytes hsize, Mem.bytes_fill le_rfl]

/-- A returned pointer is the old one or a new one, and the old contents are a part of its own. -/
theorem Holds.srealloc (h : Holds s bs A) (hb : b ∈ bs) (hbfree : b.isFree = false)
    {outcome : Option ℕ} {beyond : ℕ → UInt8} {size : ℕ}
    (hexec : s.srealloc outcome beyond b.payload size = some (ret, s')) :
    (ret = 0 ∧ s' = s) ∨
      ret ≠ 0 ∧ (ret = b.payload ∨ A ret = none) ∧ ∃ content bs', size ≤ content.length ∧
        content.take b.size = s.mem.bytes b.payload b.size ∧
        Holds s' bs' (Function.update (Function.update A b.payload none) ret (some content)) := by
  obtain heq | ⟨hsize, heq⟩ | ⟨p, s₁, bs₁, hsmall, ha, heq⟩ :=
    h.repr.srealloc hb outcome beyond size
  all_goals
    rw [hexec, Option.some.injEq, Prod.mk.injEq] at heq
    obtain ⟨rfl, rfl⟩ := heq
  · exact Or.inl ⟨rfl, rfl⟩
  · -- the block is large enough: nothing moves
    refine Or.inr ⟨h.repr.payload_ne_zero hb, Or.inl rfl, s'.mem.bytes b.payload b.size, bs, ?_,
      Mem.take_bytes le_rfl, ?_⟩
    · rwa [Mem.length_bytes]
    · rw [Function.update_idem, ← h.content b hb hbfree, Function.update_eq_self]
      exact h
  by_cases hret : ret = 0
  · rw [if_pos hret]
    exact Or.inl ⟨hret, (ha.eq_of_null h.repr hret).1⟩
  rw [if_neg hret]
  -- the old block is too small to be the new one, and is still there
  obtain ⟨hold, hne⟩ := ha.small_mem h.repr hb hsmall
  obtain ⟨hnone, d, hd, rfl, hdfree, hsize, hholds⟩ := h.allocates ha hret
  set f : ℕ → UInt8 := fun i => if i < b.size then s₁.mem (b.payload + i) else beyond i with hf
  have hcopied := hholds.of_payload hd hdfree fun x hx =>
    Mem.blit_apply_out (n := size) (f := f) (show x < d.payload ∨ d.payload + size ≤ x by
      simp only [Blk.payload, Blk.fin] at hx ⊢
      omega)
  rw [Function.update_idem] at hcopied
  -- then the old block is freed
  have hfreed := hcopied.sfree hold
  rw [Function.update_comm hne.symm] at hfreed
  refine Or.inr ⟨hret, Or.inr hnone, _, _, ?_, ?_, hfreed⟩
  · rwa [Mem.length_bytes]
  · -- the first bytes of the copy are the old payload, which allocating has not touched
    calc ((s₁.mem.blit d.payload size f).bytes d.payload d.size).take b.size
        = (s₁.mem.blit d.payload size f).bytes d.payload b.size :=
          Mem.take_bytes (hsmall.le.trans hsize)
      _ = (List.range b.size).map f := Mem.bytes_blit hsmall.le
      _ = s₁.mem.bytes b.payload b.size :=
          List.map_congr_left fun i hi => if_pos (List.mem_range.mp hi)
      _ = s.mem.bytes b.payload b.size := Holds.bytes_eq (ha.repr h.repr) hold ha.mem_eqOn

/-- Every call with `NULL` or the payload of a block returns. -/
theorem exec_isSome (h : s.Repr bs) (c : Call) (harg : c.arg = 0 ∨ ∃ b ∈ bs, b.payload = c.arg) :
    (c.exec s).isSome := by
  -- `srealloc(NULL, size)` is `smalloc(size)`
  have hsmalloc : ∀ outcome size, (s.smalloc outcome size).isSome := by
    intro outcome size
    obtain heq | ⟨p, s₁, bs₁, -, heq⟩ := h.smalloc outcome size
    all_goals rw [heq]; rfl
  cases c with
  | smalloc outcome size => exact hsmalloc outcome size
  | scalloc outcome num size =>
    rw [Call.exec]
    obtain heq | ⟨p, s₁, bs₁, -, heq⟩ := h.scalloc outcome num size
    all_goals rw [heq]; rfl
  | sfree p => rfl
  | srealloc outcome beyond oldp size =>
    obtain rfl | ⟨b, hb, rfl⟩ := harg
    · exact hsmalloc outcome size
    · rw [Call.exec]
      obtain heq | ⟨-, heq⟩ | ⟨p, s₁, bs₁, -, -, heq⟩ := h.srealloc hb outcome beyond size
      all_goals rw [heq]; rfl

end Calls

/-! ### Every run -/

/-- The abstract heap `A` describes the session: its contents are those of the live pointers. -/
def Describes (t : Session) (A : AbsHeap) : Prop :=
  (∃ bs, Holds t.heap bs A) ∧ ∀ p, p ∈ t.live ↔ A p ≠ none

namespace Describes

variable {t u : Session} {A : AbsHeap} {L : Set ℕ} {p : ℕ} {content : List UInt8}

/-- The live pointers once `p` is added. -/
theorem mem_insert_iff (hlive : ∀ q, q ∈ L ↔ A q ≠ none) (q : ℕ) :
    q ∈ insert p L ↔ Function.update A p (some content) q ≠ none := by
  by_cases hq : q = p
  · rw [hq, Function.update_self]
    exact iff_of_true (Set.mem_insert p _) (Option.some_ne_none _)
  · rw [Function.update_of_ne hq, Set.mem_insert_iff, ← hlive]
    exact or_iff_right hq

/-- The live pointers once `p` is removed. -/
theorem mem_sdiff_iff (hlive : ∀ q, q ∈ L ↔ A q ≠ none) (q : ℕ) :
    q ∈ L \ {p} ↔ Function.update A p none q ≠ none := by
  by_cases hq : q = p
  · rw [hq, Function.update_self]
    exact iff_of_false (fun h => h.2 rfl) (fun h => h rfl)
  · rw [Function.update_of_ne hq, Set.mem_sdiff, ← hlive]
    exact and_iff_left hq

/-- A live pointer is the payload of a block in use. -/
theorem exists_block {bs : List Blk} (hholds : Holds t.heap bs A)
    (hlive : ∀ q, q ∈ t.live ↔ A q ≠ none) (hp : p ∈ t.live) :
    ∃ b ∈ bs, b.isFree = false ∧ b.payload = p := hholds.block p ((hlive p).mp hp)

theorem null_notMem {bs : List Blk} (hholds : Holds t.heap bs A)
    (hlive : ∀ q, q ∈ t.live ↔ A q ≠ none) : 0 ∉ t.live := by
  intro h0
  obtain ⟨b, hb, -, hb0⟩ := exists_block hholds hlive h0
  exact hholds.repr.payload_ne_zero hb hb0

/-- **The simulation step**: every event of a client is one the abstract heap allows. -/
theorem step (e : Event) (h : Describes t A) (hstep : Step Session.live t e u) :
    ∃ B, AbsStep A e B ∧ Describes u B := by
  obtain ⟨⟨bs, hholds⟩, hlive⟩ := h
  cases hstep with
  | @call c ret heap harg hexec =>
    cases c with
    | smalloc outcome size =>
      obtain ⟨rfl, rfl⟩ | ⟨hret, hnone, content, bs', hlen, hnew⟩ := hholds.smalloc hexec
      · exact ⟨A, .refused rfl, ⟨bs, hholds⟩, hlive⟩
      · refine ⟨_, .smalloc hret hnone hlen, ⟨bs', hnew⟩, fun q => ?_⟩
        simp only [liveAfter, if_neg hret]
        exact mem_insert_iff hlive q
    | scalloc outcome num size =>
      obtain ⟨rfl, rfl⟩ | ⟨hret, hnone, content, bs', hzero, hnew⟩ := hholds.scalloc hexec
      · exact ⟨A, .refused rfl, ⟨bs, hholds⟩, hlive⟩
      · refine ⟨_, .scalloc hret hnone hzero, ⟨bs', hnew⟩, fun q => ?_⟩
        simp only [liveAfter, if_neg hret]
        exact mem_insert_iff hlive q
    | sfree p =>
      rw [Call.exec, Option.some.injEq, Prod.mk.injEq] at hexec
      obtain ⟨rfl, rfl⟩ := hexec
      obtain rfl | hp := harg
      · -- `NULL` is not live, so that nothing is removed
        refine ⟨A, .sfreeNull, ⟨bs, hholds⟩, fun q => ?_⟩
        simp only [liveAfter, Set.sdiff_singleton_eq_self (null_notMem hholds hlive)]
        exact hlive q
      · obtain ⟨b, hb, hbfree, rfl⟩ := exists_block hholds hlive hp
        exact ⟨_, .sfree (hholds.content b hb hbfree), ⟨_, hholds.sfree hb⟩, mem_sdiff_iff hlive⟩
    | srealloc outcome beyond oldp size =>
      obtain rfl | hp := harg
      · obtain ⟨rfl, rfl⟩ | ⟨hret, hnone, content, bs', hlen, hnew⟩ := hholds.smalloc hexec
        · exact ⟨A, .refused rfl, ⟨bs, hholds⟩, hlive⟩
        · refine ⟨_, .sreallocNull hret hnone hlen, ⟨bs', hnew⟩, fun q => ?_⟩
          simp only [liveAfter, if_neg hret,
            Set.sdiff_singleton_eq_self (null_notMem hholds hlive)]
          exact mem_insert_iff hlive q
      · obtain ⟨b, hb, hbfree, rfl⟩ := exists_block hholds hlive hp
        have hold := hholds.content b hb hbfree
        obtain ⟨rfl, rfl⟩ | ⟨hret, hnone, content, bs', hlen, hkept, hnew⟩ :=
          hholds.srealloc hb hbfree hexec
        · exact ⟨A, .refused rfl, ⟨bs, hholds⟩, hlive⟩
        · refine ⟨_, .srealloc hold hret hnone hlen ?_, ⟨bs', hnew⟩, fun q => ?_⟩
          · rwa [Mem.length_bytes]
          · simp only [liveAfter, if_neg hret]
            exact mem_insert_iff (mem_sdiff_iff hlive) q
  | @write p i v hp hi =>
    obtain ⟨b, hb, hbfree, rfl⟩ := exists_block hholds hlive hp
    have hhdr : b.payload - metadataSize = b.addr := Nat.add_sub_cancel _ _
    rw [hhdr, hholds.repr.size_eq b hb] at hi
    have hnew := hholds.of_payload hb hbfree (m := Function.update t.heap.mem (b.payload + i) v)
      fun x hx => Function.update_of_ne
        (show x ≠ b.payload + i by simp only [Blk.payload, Blk.fin] at hx ⊢; omega) _ _
    rw [Mem.bytes_update] at hnew
    refine ⟨_, .write (hholds.content b hb hbfree) (by rwa [Mem.length_bytes]), ⟨bs, hnew⟩,
      fun q => ?_⟩
    rw [← mem_insert_iff hlive q, Set.insert_eq_of_mem hp]

end Describes

/-- **Heap integrity.** Along every run of a client that passes `NULL` or a live pointer and writes
inside live payloads, whatever `sbrk` answers: the blocks of `globalPointersList` lie one above the
other, header and payload; the contents of the live payloads evolve as the abstract heap's do, event
by event; and every further call of the client returns. -/
theorem heap_integrity {s t : Session} {es : List Event} (hs : (client Session.live).init s)
    (h : (client Session.live).Run s es t) :
    (∃ bs, t.heap.blocks = some bs ∧
      bs.Pairwise fun a b => a.addr < b.addr ∧ a.addr + metadataSize + a.size ≤ b.addr) ∧
    (∃ A, abstractHeap.Run (fun _ => none) es A ∧
      (∀ p ∈ t.live, A p = some (t.heap.mem.bytes p (t.heap.size (p - metadataSize)))) ∧
      ∀ p ∉ t.live, A p = none) ∧
    ∀ c : Call, c.arg = 0 ∨ c.arg ∈ t.live → (c.exec t.heap).isSome := by
  have hstart : Describes s fun _ => none := by
    obtain ⟨hfresh, -, hlive⟩ := hs
    refine ⟨⟨[], .fresh hfresh, fun b hb => absurd hb List.not_mem_nil, fun p hp => absurd rfl hp⟩,
      fun p => ?_⟩
    rw [hlive]
    exact iff_of_false (Set.notMem_empty p) (fun hp => hp rfl)
  -- the abstract heap follows, event by event
  have hsim : ∃ A, abstractHeap.Run (fun _ => none) es A ∧ Describes t A :=
    h.simulate (fun _ e _ _ hd hst => hd.step e hst) hstart
  obtain ⟨A, hrun, ⟨bs, hholds⟩, hlive⟩ := hsim
  have hr := hholds.repr
  have hsorted : bs.Pairwise fun a b =>
      a.addr < b.addr ∧ a.addr + metadataSize + a.size ≤ b.addr := by
    apply hr.apart.imp
    intro a b hab
    simp only [Blk.fin, metadataSize] at hab ⊢
    omega
  refine ⟨⟨bs, hr.blocks_eq, hsorted⟩, ⟨A, hrun, fun p hp => ?_, fun p hp => ?_⟩, fun c harg => ?_⟩
  · obtain ⟨b, hb, hbfree, rfl⟩ := Describes.exists_block hholds hlive hp
    have hhdr : b.payload - metadataSize = b.addr := Nat.add_sub_cancel _ _
    rw [hholds.content b hb hbfree, hhdr, hr.size_eq b hb]
  · -- a pointer that is not live is in no abstract heap
    exact not_not.mp (mt (hlive p).mpr hp)
  · refine exec_isSome hr c (harg.imp_right fun hp => ?_)
    obtain ⟨b, hb, -, hbp⟩ := Describes.exists_block hholds hlive hp
    exact ⟨b, hb, hbp⟩

/-- The theorem at such a run: the byte that was written has moved along. -/
theorem heap_integrity_sample :
    ∃ s es t, (client Session.live).init s ∧ (client Session.live).Run s es t ∧
      t.live = {4128, 4240} ∧
      ∃ A bytes, abstractHeap.Run (fun _ => none) es A ∧ A 4128 = some bytes ∧
        bytes.length = 40 ∧ bytes.head? = some 7 := by
  obtain ⟨s, es, t, hs, hrun, -, hlive, hsize, hbyte⟩ :=
    exists_moved Session.live fun _ _ hp _ => hp
  obtain ⟨-, ⟨A, habs, hcontent, -⟩, -⟩ := heap_integrity hs hrun
  have hmoved := hcontent 4128 (by rw [hlive]; exact Set.mem_insert _ _)
  change A 4128 = some (t.heap.mem.bytes 4128 (t.heap.size 4096)) at hmoved
  rw [hsize] at hmoved
  refine ⟨s, es, t, hs, hrun, hlive, A, _, habs, hmoved, Mem.length_bytes _ _ _, ?_⟩
  exact congrArg some hbyte

end OsHomework.Malloc2
