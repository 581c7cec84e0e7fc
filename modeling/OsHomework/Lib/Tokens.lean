import Mathlib.Data.List.DropRight
import Mathlib.Data.List.TakeWhile
import Mathlib.Tactic.Common

/-!
# Tokens of a text

The tokens of a list are its maximal runs of elements that are no separators. Everything about them
follows from one equation, `tokens_append_sep`: at a separator the text falls into two parts whose
tokens are found one after another.

`strip` cuts the separators off both ends. It keeps the tokens (`tokens_strip`), and what it leaves
neither begins nor ends with a separator.
-/

namespace OsHomework

variable {α : Type}

/-- The maximal runs of elements that do not satisfy `p`, in order. -/
def tokens (p : α → Bool) (s : List α) : List (List α) := (s.splitOnP p).filter (!·.isEmpty)

/-- The text without the separators at its two ends. -/
def strip (p : α → Bool) (s : List α) : List α := (s.dropWhile p).rdropWhile p

section Tokens

variable {p : α → Bool} {c : α} {s t w rest : List α}

@[simp] theorem tokens_nil : tokens p [] = [] := by
  simp [tokens, List.splitOnP_nil]

/-- A separator splits the text. -/
theorem tokens_append_sep (hc : p c = true) (s t : List α) :
    tokens p (s ++ c :: t) = tokens p s ++ tokens p t := by
  unfold tokens
  rw [List.splitOnP_append_cons s t hc, List.filter_append]

theorem tokens_cons_sep (hc : p c = true) (t : List α) : tokens p (c :: t) = tokens p t := by
  rw [← List.nil_append (c :: t), tokens_append_sep hc, tokens_nil, List.nil_append]

/-- A text without separators is one token. -/
theorem tokens_word (hne : w ≠ []) (hw : ∀ c ∈ w, p c = false) : tokens p w = [w] := by
  unfold tokens
  rw [List.splitOnP_eq_singleton hw]
  exact List.filter_cons_of_pos (by simpa using hne)

/-- A word in front of a separator, or of nothing, is the first token. -/
theorem tokens_word_append (hne : w ≠ []) (hw : ∀ c ∈ w, p c = false)
    (hrest : ∀ c ∈ rest.head?, p c = true) : tokens p (w ++ rest) = w :: tokens p rest := by
  cases rest with
  | nil => rw [List.append_nil, tokens_word hne hw, tokens_nil]
  | cons c rest =>
    -- the separator behind the word ends the token
    have hc : p c = true := hrest c rfl
    rw [tokens_append_sep hc, tokens_word hne hw, tokens_cons_sep hc, List.singleton_append]

theorem tokens_append_of_seps (ht : ∀ c ∈ t, p c = true) : tokens p (s ++ t) = tokens p s := by
  induction t generalizing s with
  | nil => rw [List.append_nil]
  | cons c t ih =>
    -- a text of separators has no token
    have hrest : tokens p t = [] := by
      simpa using ih (s := []) fun d hd => ht d (List.mem_cons_of_mem c hd)
    rw [tokens_append_sep (ht c List.mem_cons_self), hrest, List.append_nil]

theorem tokens_of_seps_append (hs : ∀ c ∈ s, p c = true) : tokens p (s ++ t) = tokens p t := by
  induction s with
  | nil => rw [List.nil_append]
  | cons c s ih =>
    rw [List.cons_append, tokens_cons_sep (hs c List.mem_cons_self)]
    exact ih fun d hd => hs d (List.mem_cons_of_mem c hd)

theorem tokens_dropWhile (s : List α) : tokens p (s.dropWhile p) = tokens p s := by
  conv_rhs => rw [← List.takeWhile_append_dropWhile (p := p) (l := s)]
  exact (tokens_of_seps_append fun c hc => List.mem_takeWhile_imp hc).symm

theorem tokens_rdropWhile (s : List α) : tokens p (s.rdropWhile p) = tokens p s := by
  conv_rhs => rw [← List.rdropWhile_append_rtakeWhile (p := p) (l := s)]
  refine (tokens_append_of_seps fun c hc => ?_).symm
  rw [List.rtakeWhile, List.mem_reverse] at hc
  exact List.mem_takeWhile_imp hc

/-- Separators at the ends belong to no token. -/
theorem tokens_strip (s : List α) : tokens p (strip p s) = tokens p s := by
  rw [strip, tokens_rdropWhile, tokens_dropWhile]

/-- What `dropWhile` leaves begins with an element that stopped it. -/
theorem head?_dropWhile_eq_false (h : c ∈ (s.dropWhile p).head?) : p c = false := by
  have hnot := List.head?_dropWhile_not p s
  rw [Option.mem_def.mp h] at hnot
  exact hnot

/-- **The first token**, with what stands before and behind it. -/
theorem tokens_eq_cons (h : s.dropWhile p ≠ []) :
    tokens p s =
      (s.dropWhile p).takeWhile (!p ·) :: tokens p ((s.dropWhile p).dropWhile (!p ·)) := by
  -- the text goes on with an element that is no separator
  obtain ⟨c, r, hr⟩ := List.exists_cons_of_ne_nil h
  have hc : p c = false := head?_dropWhile_eq_false (by rw [hr]; rfl)
  rw [← tokens_dropWhile s, hr]
  conv_lhs => rw [← List.takeWhile_append_dropWhile (p := (!p ·)) (l := c :: r)]
  refine tokens_word_append ?_ (fun d hd => by simpa using List.mem_takeWhile_imp hd) fun d hd => ?_
  · rw [List.takeWhile_cons_of_pos (by simp [hc])]
    exact List.cons_ne_nil _ _
  · simpa using head?_dropWhile_eq_false hd

theorem tokens_eq_nil_iff : tokens p s = [] ↔ ∀ c ∈ s, p c = true := by
  constructor
  · intro h
    -- an element that is no separator begins a token
    by_contra hne
    apply absurd h
    rw [tokens_eq_cons fun hnil => hne (List.dropWhile_eq_nil_iff.mp hnil)]
    exact List.cons_ne_nil _ _
  · intro h
    rw [← List.nil_append s, tokens_append_of_seps h, tokens_nil]

/-- Together the tokens are the text without its separators. -/
theorem flatten_tokens (s : List α) : (tokens p s).flatten = s.filter (!p ·) := by
  induction hn : s.length using Nat.strong_induction_on generalizing s with
  | _ n ih =>
    by_cases hnil : s.dropWhile p = []
    · have hall := List.dropWhile_eq_nil_iff.mp hnil
      rw [tokens_eq_nil_iff.mpr hall, List.filter_eq_nil_iff.mpr fun c hc => by simp [hall c hc]]
      rfl
    · -- the separators in front, the first token, and the rest
      have hsplit : s = s.takeWhile p ++ ((s.dropWhile p).takeWhile (!p ·) ++
          (s.dropWhile p).dropWhile (!p ·)) := by
        rw [List.takeWhile_append_dropWhile, List.takeWhile_append_dropWhile]
      have hword : 0 < ((s.dropWhile p).takeWhile (!p ·)).length := by
        obtain ⟨c, r, hr⟩ := List.exists_cons_of_ne_nil hnil
        have hc : p c = false := head?_dropWhile_eq_false (by rw [hr]; rfl)
        rw [hr, List.takeWhile_cons_of_pos (by simp [hc])]
        exact Nat.succ_pos _
      have hlen := congrArg List.length hsplit
      rw [List.length_append, List.length_append] at hlen
      have hfront : (s.takeWhile p).filter (!p ·) = [] :=
        List.filter_eq_nil_iff.mpr fun c hc => by simp [List.mem_takeWhile_imp hc]
      have hfirst : ((s.dropWhile p).takeWhile (!p ·)).filter (!p ·) =
          (s.dropWhile p).takeWhile (!p ·) :=
        List.filter_eq_self.mpr fun c hc => by simpa using List.mem_takeWhile_imp hc
      rw [tokens_eq_cons hnil, List.flatten_cons, ih _ (by omega) _ rfl]
      conv_rhs => rw [hsplit, List.filter_append, List.filter_append, hfront, hfirst]
      rfl

/-- A longer text has no fewer tokens. -/
theorem length_tokens_le_append (s t : List α) :
    (tokens p s).length ≤ (tokens p (s ++ t)).length := by
  induction hn : s.length using Nat.strong_induction_on generalizing s with
  | _ n ih =>
    by_cases hsep : ∃ c ∈ s, p c = true
    · -- cut at a separator of `s`: the tokens before it are the same in both texts
      obtain ⟨c, hc, hpc⟩ := hsep
      obtain ⟨a, b, rfl⟩ := List.append_of_mem hc
      rw [List.append_assoc, List.cons_append, tokens_append_sep hpc, tokens_append_sep hpc,
        List.length_append, List.length_append]
      exact Nat.add_le_add_left (ih b.length (by simp at hn; omega) b rfl) _
    · -- at most one token, which begins one in the longer text
      cases s with
      | nil => exact Nat.zero_le _
      | cons d s =>
        have hword : ∀ c ∈ d :: s, p c = false := by
          intro c hc
          by_contra hpc
          exact hsep ⟨c, hc, by simpa using hpc⟩
        rw [tokens_word (List.cons_ne_nil d s) hword, List.length_singleton]
        apply List.length_pos_iff.mpr
        intro hnil
        have hd := tokens_eq_nil_iff.mp hnil d (by simp)
        rw [hword d List.mem_cons_self] at hd
        cases hd

end Tokens

section Strip

variable {p : α → Bool} {c : α} {s w t : List α}

/-- What is cut off are separators. -/
theorem exists_strip (p : α → Bool) (s : List α) :
    ∃ a b, s = a ++ strip p s ++ b ∧ (∀ c ∈ a, p c = true) ∧ ∀ c ∈ b, p c = true := by
  refine ⟨s.takeWhile p, (s.dropWhile p).rtakeWhile p, ?_, fun c hc => List.mem_takeWhile_imp hc,
    fun c hc => ?_⟩
  · rw [strip, List.append_assoc, List.rdropWhile_append_rtakeWhile,
      List.takeWhile_append_dropWhile]
  · rw [List.rtakeWhile, List.mem_reverse] at hc
    exact List.mem_takeWhile_imp hc

/-- Stripping keeps everything that is no separator. -/
theorem mem_strip_iff (hc : p c = false) : c ∈ strip p s ↔ c ∈ s := by
  obtain ⟨a, b, hs, ha, hb⟩ := exists_strip p s
  -- the element is in none of the two parts that are cut off
  have hca : c ∉ a := fun h => by simp [ha c h] at hc
  have hcb : c ∉ b := fun h => by simp [hb c h] at hc
  conv_rhs => rw [hs]
  simp [hca, hcb]

theorem length_strip_le (p : α → Bool) (s : List α) : (strip p s).length ≤ s.length := by
  obtain ⟨a, b, hs, -, -⟩ := exists_strip p s
  have hlen := congrArg List.length hs
  simp only [List.length_append] at hlen
  omega

theorem forall_mem_strip_iff : (∀ c ∈ strip p s, p c = true) ↔ ∀ c ∈ s, p c = true := by
  rw [← tokens_eq_nil_iff, ← tokens_eq_nil_iff, tokens_strip]

/-- Behind a word only the separators at the end are cut off. -/
theorem rdropWhile_word_append (hw : ∀ c ∈ w, p c = false) (t : List α) :
    (w ++ t).rdropWhile p = w ++ t.rdropWhile p := by
  induction t using List.reverseRecOn with
  | nil =>
    rw [List.append_nil, List.rdropWhile_nil, List.append_nil, List.rdropWhile_eq_self_iff]
    intro hne
    simp [hw _ (List.getLast_mem hne)]
  | append_singleton t c ih =>
    rw [← List.append_assoc, List.rdropWhile_concat, List.rdropWhile_concat]
    split
    · exact ih
    · rw [List.append_assoc]

/-- Stripping a text that begins with separators and a word. -/
theorem strip_word_append (hs : ∀ c ∈ s, p c = true) (hne : w ≠ []) (hw : ∀ c ∈ w, p c = false)
    (t : List α) : strip p (s ++ (w ++ t)) = w ++ t.rdropWhile p := by
  obtain ⟨d, w, rfl⟩ := List.exists_cons_of_ne_nil hne
  rw [strip, List.dropWhile_append_of_pos hs, List.cons_append,
    List.dropWhile_cons_of_neg (by simp [hw d List.mem_cons_self]), ← List.cons_append,
    rdropWhile_word_append hw]

end Strip

end OsHomework
