import Mathlib.Algebra.BigOperators.Group.Finset.Basic
import Mathlib.Algebra.GroupWithZero.Nat
import Mathlib.Algebra.Order.BigOperators.Group.Finset
import Mathlib.Data.Set.Pairwise.Lattice
import Mathlib.Order.CompletePartialOrder
import Mathlib.Order.Interval.Finset.Nat

/-!
# Tilings

`Tiles range S R`: the sets `range b`, over the tiles `b` in `S`, are pairwise disjoint and make up
`R`. A tiling is changed locally, by replacing some of the tiles by others that cover the same part
(`Tiles.replace`). Blocks of numbers that tile an interval have its length as the sum of their sizes
(`Tiles.sum_size`).
-/

namespace OsHomework

/-- The sets `range b` for `b ∈ S` partition `R`. -/
structure Tiles {α β : Type} (range : α → Set β) (S : Set α) (R : Set β) : Prop where
  disjoint : S.PairwiseDisjoint range
  cover : ⋃ b ∈ S, range b = R

namespace Tiles

variable {α β : Type} {range : α → Set β} {S T T' : Set α} {R : Set β} {b c : α} {x : β}

theorem subset (h : Tiles range S R) (hb : b ∈ S) : range b ⊆ R := by
  rw [← h.cover]
  exact Set.subset_biUnion_of_mem hb

/-- Every point lies in a tile … -/
theorem exists_mem (h : Tiles range S R) (hx : x ∈ R) : ∃ b ∈ S, x ∈ range b := by
  rw [← h.cover] at hx
  simpa using hx

/-- … and in no other. -/
theorem eq_of_mem (h : Tiles range S R) (hb : b ∈ S) (hc : c ∈ S) (hxb : x ∈ range b)
    (hxc : x ∈ range c) : b = c := h.disjoint.elim_set hb hc x hxb hxc

theorem singleton (range : α → Set β) (b : α) : Tiles range {b} (range b) where
  disjoint := Set.pairwiseDisjoint_singleton _ _
  cover := Set.biUnion_singleton b range

/-- Two tilings of disjoint parts. -/
theorem union {R' : Set β} (h : Tiles range S R) (h' : Tiles range T R') (hdisj : Disjoint R R') :
    Tiles range (S ∪ T) (R ∪ R') where
  disjoint := by
    refine Set.pairwiseDisjoint_union.mpr ⟨h.disjoint, h'.disjoint, fun b hb c hc _ => ?_⟩
    exact hdisj.mono (h.subset hb) (h'.subset hc)
  cover := by rw [Set.biUnion_union, h.cover, h'.cover]

/-- Some of the tiles form a tiling of the part that they cover. -/
theorem sdiff (h : Tiles range S R) (hT : T ⊆ S) :
    Tiles range (S \ T) (R \ ⋃ b ∈ T, range b) where
  disjoint := h.disjoint.subset Set.sdiff_subset
  cover := by
    ext x
    simp only [Set.mem_iUnion, Set.mem_sdiff, exists_prop, not_exists, not_and]
    constructor
    · rintro ⟨b, ⟨hb, hbT⟩, hx⟩
      refine ⟨h.subset hb hx, fun c hc hxc => hbT ?_⟩
      rwa [h.eq_of_mem hb (hT hc) hx hxc]
    · rintro ⟨hxR, hxT⟩
      obtain ⟨b, hb, hx⟩ := h.exists_mem hxR
      exact ⟨b, ⟨hb, fun hbT => hxT b hbT hx⟩, hx⟩

/-- **Local change**: tiles `T` give way to tiles `T'` of the same part. -/
theorem replace (h : Tiles range S R) (hT : T ⊆ S) (h' : Tiles range T' (⋃ b ∈ T, range b)) :
    Tiles range (S \ T ∪ T') R := by
  have hsub : ⋃ b ∈ T, range b ⊆ R := Set.iUnion₂_subset fun b hb => h.subset (hT hb)
  have hnew := (h.sdiff hT).union h' Set.disjoint_sdiff_left
  rwa [Set.sdiff_union_of_subset hsub] at hnew

end Tiles

/-- The numbers of a block. -/
abbrev blockRange {α : Type} (start size : α → ℕ) (b : α) : Set ℕ :=
  Set.Ico (start b) (start b + size b)

/-- The sizes of the blocks that tile an interval add up to its length. -/
theorem Tiles.sum_size {α : Type} {start size : α → ℕ} {L : List α} {lo hi : ℕ} (hL : L.Nodup)
    (h : Tiles (blockRange start size) {b | b ∈ L} (Set.Ico lo hi)) :
    (L.map size).sum = hi - lo := by
  classical
  have hcover : L.toFinset.biUnion (fun b => Finset.Ico (start b) (start b + size b))
      = Finset.Ico lo hi := by
    ext x
    rw [Finset.mem_biUnion, Finset.mem_Ico]
    constructor
    · rintro ⟨b, hb, hx⟩
      exact h.subset (List.mem_toFinset.mp hb) (Finset.mem_Ico.mp hx)
    · intro hx
      obtain ⟨b, hb, hxb⟩ := h.exists_mem hx
      exact ⟨b, List.mem_toFinset.mpr hb, Finset.mem_Ico.mpr hxb⟩
  have hdisj : ∀ b ∈ L.toFinset, ∀ c ∈ L.toFinset, b ≠ c →
      Disjoint (Finset.Ico (start b) (start b + size b))
        (Finset.Ico (start c) (start c + size c)) := by
    intro b hb c hc hbc
    have := h.disjoint (List.mem_toFinset.mp hb) (List.mem_toFinset.mp hc) hbc
    rw [← Finset.disjoint_coe, Finset.coe_Ico, Finset.coe_Ico]
    exact this
  calc (L.map size).sum = ∑ b ∈ L.toFinset, size b := (List.sum_toFinset size hL).symm
    _ = ∑ b ∈ L.toFinset, (Finset.Ico (start b) (start b + size b)).card := by
        simp only [Nat.card_Ico, Nat.add_sub_cancel_left]
    _ = (Finset.Ico lo hi).card := by rw [← hcover, Finset.card_biUnion hdisj]
    _ = hi - lo := Nat.card_Ico lo hi

end OsHomework
