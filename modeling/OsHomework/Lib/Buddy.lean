import OsHomework.Lib.Tiling
import Mathlib.Data.Nat.Bitwise
import Mathlib.Order.Interval.Set.Disjoint

/-!
# Buddies

A dyadic block is an interval of `n` numbers, `n` a power of two, that starts at a multiple of `n`.
Two dyadic blocks are nested or disjoint (`Dyadic.subset_of_mem`). The buddy of the block at `a` is
the block of the same size at `a ^^^ n`: it lies next to it, and the two make up a dyadic block of
twice the size (`Dyadic.buddy_cases`). In a tiling by dyadic blocks there is always a tile that
starts where the buddy of a tile does, and it is not larger (`Tiles.exists_at_buddy`). If no two
tiles inside a dyadic block are buddies, the block lies in one tile (`Tiles.exists_superset`).
-/

namespace OsHomework

/-- The interval of `n` numbers from `a` on is a dyadic block. -/
structure Dyadic (a n : ℕ) : Prop where
  pow : n.isPowerOfTwo
  dvd : n ∣ a

namespace Dyadic

variable {a b m n x : ℕ}

theorem pos (h : Dyadic a n) : 0 < n := Nat.pos_of_isPowerOfTwo h.pow

/-- Dyadic blocks that meet are nested. -/
theorem subset_of_mem (h : Dyadic a m) (h' : Dyadic b n) (hmn : m ≤ n) (hxa : x ∈ Set.Ico a (a + m))
    (hxb : x ∈ Set.Ico b (b + n)) : Set.Ico a (a + m) ⊆ Set.Ico b (b + n) := by
  obtain ⟨⟨i, rfl⟩, ha⟩ := h
  obtain ⟨⟨j, rfl⟩, hb⟩ := h'
  have hij : 2 ^ i ∣ 2 ^ j := pow_dvd_pow 2 ((Nat.pow_le_pow_iff_right (by decide)).mp hmn)
  have hbi : 2 ^ i ∣ b := hij.trans hb
  obtain ⟨p, rfl⟩ := ha
  obtain ⟨q, rfl⟩ := hbi
  obtain ⟨r, hr⟩ := hij
  rw [hr, ← Nat.mul_add] at hxb ⊢
  obtain ⟨h1, h2⟩ := hxa
  obtain ⟨h3, h4⟩ := hxb
  rw [← Nat.mul_succ] at h2 ⊢
  -- all four ends are multiples of the smaller size
  have hqp : q < p + 1 := Nat.lt_of_mul_lt_mul_left (h3.trans_lt h2)
  have hpq : p < q + r := Nat.lt_of_mul_lt_mul_left (h1.trans_lt h4)
  exact Set.Ico_subset_Ico (Nat.mul_le_mul_left _ (Nat.le_of_lt_succ hqp))
    (Nat.mul_le_mul_left _ hpq)

/-- The buddy of a dyadic block lies behind it or before it, and the lower of the two starts a block
of twice the size. -/
theorem buddy_cases (h : Dyadic a n) :
    (Dyadic a (n * 2) ∧ a ^^^ n = a + n) ∨
      (Dyadic (a ^^^ n) (n * 2) ∧ a = (a ^^^ n) + n) := by
  obtain ⟨⟨k, rfl⟩, q, rfl⟩ := h
  have hpow : (2 ^ k * 2).isPowerOfTwo := ⟨k + 1, (pow_succ 2 k).symm⟩
  have hxor : 2 ^ k * q ^^^ 2 ^ k = 2 ^ k * (q ^^^ 1) := by
    have := Nat.shiftLeft_xor_distrib (i := k) (a := q) (b := 1)
    rw [Nat.shiftLeft_eq, Nat.shiftLeft_eq, Nat.shiftLeft_eq, Nat.one_mul] at this
    rw [Nat.mul_comm, ← this, Nat.mul_comm]
  rw [hxor]
  obtain heven | hodd := Nat.even_or_odd q
  · refine Or.inl ⟨⟨hpow, Nat.mul_dvd_mul_left _ heven.two_dvd⟩, ?_⟩
    rw [Nat.xor_one_of_even heven, Nat.mul_succ]
  · obtain ⟨r, rfl⟩ := hodd
    rw [Nat.xor_one_of_odd ⟨r, rfl⟩, Nat.add_sub_cancel]
    exact Or.inr ⟨⟨hpow, Nat.mul_dvd_mul_left _ (Nat.dvd_mul_right 2 r)⟩, Nat.mul_succ _ _⟩

/-- The block that two buddies make up. -/
theorem min_buddy (h : Dyadic a n) : Dyadic (min a (a ^^^ n)) (n * 2) := by
  obtain ⟨hd, heq⟩ | ⟨hd, heq⟩ := h.buddy_cases
  · rwa [heq, min_eq_left (Nat.le_add_right a n)]
  · rwa [min_eq_right (by omega)]

theorem buddy (h : Dyadic a n) : Dyadic (a ^^^ n) n := by
  refine ⟨h.pow, ?_⟩
  obtain ⟨hd, heq⟩ | ⟨hd, -⟩ := h.buddy_cases
  · rw [heq]
    exact Nat.dvd_add h.dvd dvd_rfl
  · exact (Nat.dvd_mul_right n 2).trans hd.dvd

/-- Two buddies side by side. -/
theorem Ico_union_buddy (h : Dyadic a n) :
    Set.Ico a (a + n) ∪ Set.Ico (a ^^^ n) ((a ^^^ n) + n)
      = Set.Ico (min a (a ^^^ n)) (min a (a ^^^ n) + n * 2) := by
  ext x
  simp only [Set.mem_union, Set.mem_Ico]
  obtain ⟨-, heq⟩ | ⟨-, heq⟩ := h.buddy_cases <;> omega

theorem disjoint_buddy (h : Dyadic a n) :
    Disjoint (Set.Ico a (a + n)) (Set.Ico (a ^^^ n) ((a ^^^ n) + n)) := by
  rw [Set.Ico_disjoint_Ico]
  obtain ⟨-, heq⟩ | ⟨-, heq⟩ := h.buddy_cases
  · exact (min_le_left _ _).trans (heq ▸ le_max_right _ _)
  · exact (min_le_right _ _).trans (heq ▸ le_max_left _ _)

/-- A dyadic block inside a larger one has its buddy there too. -/
theorem buddy_mem (h : Dyadic a m) (h' : Dyadic b n) (hmn : m < n) (ha : a ∈ Set.Ico b (b + n)) :
    a ^^^ m ∈ Set.Ico b (b + n) := by
  have hpos := h.pos
  have hdouble : m * 2 ≤ n := by
    obtain ⟨i, rfl⟩ := h.pow
    obtain ⟨j, rfl⟩ := h'.pow
    rw [← pow_succ]
    exact Nat.pow_le_pow_right (by decide) ((Nat.pow_lt_pow_iff_right (by decide)).mp hmn)
  have hmin := h.Ico_union_buddy
  have ha' : a ∈ Set.Ico (min a (a ^^^ m)) (min a (a ^^^ m) + m * 2) :=
    hmin ▸ Or.inl ⟨le_rfl, Nat.lt_add_of_pos_right hpos⟩
  apply h.min_buddy.subset_of_mem h' hdouble ha' ha
  exact hmin ▸ Or.inr ⟨le_rfl, Nat.lt_add_of_pos_right hpos⟩

end Dyadic

/-- **Where the buddy of a tile starts, a tile starts**, and it is not larger. -/
theorem Tiles.exists_at_buddy {α : Type} {start size : α → ℕ} {S : Set α} {R : Set ℕ} {b : α}
    (h : Tiles (blockRange start size) S R) (hdyadic : ∀ c ∈ S, Dyadic (start c) (size c))
    (hb : b ∈ S) (hR : start b ^^^ size b ∈ R) :
    ∃ c ∈ S, start c = start b ^^^ size b ∧ size c ≤ size b := by
  have hdb := hdyadic b hb
  obtain ⟨c, hc, hmem⟩ := h.exists_mem hR
  have hdc := hdyadic c hc
  have hself : start b ^^^ size b ∈ Set.Ico (start b ^^^ size b) ((start b ^^^ size b) + size b) :=
    ⟨le_rfl, Nat.lt_add_of_pos_right hdb.pos⟩
  have hstart : start b ∈ blockRange start size b := ⟨le_rfl, Nat.lt_add_of_pos_right hdb.pos⟩
  -- a larger tile would contain `b` as well
  have hle : size c ≤ size b := by
    by_contra hlt
    have hxor : (start b ^^^ size b) ^^^ size b = start b := Nat.xor_xor_cancel_right _ _
    have hback := hdb.buddy.buddy_mem hdc (not_le.mp hlt) hmem
    rw [hxor] at hback
    have := h.eq_of_mem hb hc hstart hback
    rw [this] at hlt
    exact hlt le_rfl
  refine ⟨c, hc, le_antisymm hmem.1 ?_, hle⟩
  exact (hdc.subset_of_mem hdb.buddy hle hmem hself ⟨le_rfl, Nat.lt_add_of_pos_right hdc.pos⟩).1

/-- **A dyadic block in which no two tiles are buddies lies in one tile.** -/
theorem Tiles.exists_superset {α : Type} {start size : α → ℕ} {S : Set α} {R : Set ℕ} {a n : ℕ}
    (h : Tiles (blockRange start size) S R) (hdyadic : ∀ c ∈ S, Dyadic (start c) (size c))
    (hD : Dyadic a n) (hsub : Set.Ico a (a + n) ⊆ R)
    (hno : ∀ b ∈ S, ∀ c ∈ S, start b ∈ Set.Ico a (a + n) → start c ∈ Set.Ico a (a + n) →
      size b < n → start c = start b ^^^ size b → size c ≠ size b) :
    ∃ b ∈ S, Set.Ico a (a + n) ⊆ blockRange start size b := by
  have ha : a ∈ Set.Ico a (a + n) := ⟨le_rfl, Nat.lt_add_of_pos_right hD.pos⟩
  have hstart : ∀ c ∈ S, start c ∈ blockRange start size c := fun c hc =>
    ⟨le_rfl, Nat.lt_add_of_pos_right (hdyadic c hc).pos⟩
  by_contra hnone
  -- so every tile that meets the block is smaller, and starts in it
  have hsmall : ∀ c ∈ S, ∀ x ∈ Set.Ico a (a + n), x ∈ blockRange start size c →
      size c < n ∧ start c ∈ Set.Ico a (a + n) := by
    intro c hc x hx hxc
    have hlt : size c < n := by
      by_contra hge
      exact hnone ⟨c, hc, hD.subset_of_mem (hdyadic c hc) (not_lt.mp hge) hx hxc⟩
    exact ⟨hlt, (hdyadic c hc).subset_of_mem hD hlt.le hxc hx (hstart c hc)⟩
  obtain ⟨b₀, hb₀, hab₀⟩ := h.exists_mem (hsub ha)
  obtain ⟨b, ⟨hb, hbD⟩, hmin⟩ := exists_minimalFor_of_wellFoundedLT
    (fun c => c ∈ S ∧ start c ∈ Set.Ico a (a + n)) size ⟨b₀, hb₀, (hsmall b₀ hb₀ a ha hab₀).2⟩
  have hbn := (hsmall b hb _ hbD (hstart b hb)).1
  -- the tile at the buddy of a smallest one has the same size
  have hbuddy := (hdyadic b hb).buddy_mem hD hbn hbD
  obtain ⟨c, hc, hcs, hle⟩ := h.exists_at_buddy hdyadic hb (hsub hbuddy)
  have hcD : start c ∈ Set.Ico a (a + n) := hcs ▸ hbuddy
  exact hno b hb c hc hbD hcD hbn hcs (le_antisymm hle (hmin ⟨hc, hcD⟩ hle))

end OsHomework
