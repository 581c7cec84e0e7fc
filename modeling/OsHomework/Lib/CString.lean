import Mathlib.Data.List.TakeWhile
import Mathlib.Tactic

/-!
# Byte strings

What the C library does with a `char` array, over lists of bytes: a string ends
at its first `NUL` (`cstr`), `strcmp` and `strcasecmp` compare two strings,
`strstr` and `index` search in one, and `%s` of `scanf` skips white space and
takes the bytes up to the next white space (`scanWord`).

The lemmas say what each of them gives on a text that is put together from known
parts.
-/

namespace OsHomework

/-- The bytes of an ASCII literal. -/
def ascii (s : String) : List UInt8 := s.toList.map fun c => UInt8.ofNat c.toNat

/-- A literal has a byte for each of its characters. -/
theorem length_ascii (cs : List Char) : (ascii (String.ofList cs)).length = cs.length := by
  rw [ascii, String.toList_ofList, List.length_map]

/-- The string an array holds: everything before the first `NUL`. -/
def cstr (bs : List UInt8) : List UInt8 := bs.takeWhile (· ≠ 0)

/-- The byte of `'\n'`. -/
def newline : UInt8 := 10

/-- `isspace` in the C locale. -/
def isspace (b : UInt8) : Bool := b = 32 || (9 ≤ b && b ≤ 13)

/-- `tolower` in the C locale. -/
def tolower (b : UInt8) : UInt8 := if 65 ≤ b ∧ b ≤ 90 then b + 32 else b

/-- `strcmp(a, b) == 0`. -/
def strEq (a b : List UInt8) : Bool := cstr a = cstr b

/-- `strcasecmp(a, b) == 0`. -/
def strcaseEq (a b : List UInt8) : Bool := (cstr a).map tolower = (cstr b).map tolower

/-- `strstr(s, p) != NULL`. -/
def strstr (s p : List UInt8) : Bool := decide (cstr p <:+: cstr s)

/-- `index(s, c)`: the bytes in front of the one that is found, and those behind it. -/
def index (s : List UInt8) (c : UInt8) : Option (List UInt8 × List UInt8) :=
  if c ∈ cstr s then
    some ((cstr s).takeWhile (· ≠ c), ((cstr s).dropWhile (· ≠ c)).tail)
  else none

/-- One `%s`: the word and what is left of the input, `none` when the input ends
before a word begins. -/
def scanWord (s : List UInt8) : Option (List UInt8 × List UInt8) :=
  match s.dropWhile isspace with
  | [] => none
  | b :: bs =>
    some ((b :: bs).takeWhile (fun c => !isspace c), (b :: bs).dropWhile (fun c => !isspace c))

/-! ### Strings put together from parts -/

section Lemmas

variable {w rest bs : List UInt8} {b : UInt8}

theorem cstr_eq_self (h : 0 ∉ bs) : cstr bs = bs := by
  apply List.takeWhile_eq_self_iff.mpr
  intro c hc
  have hne : c ≠ 0 := fun h0 => h (h0 ▸ hc)
  simpa using hne

theorem zero_notMem_cstr (bs : List UInt8) : 0 ∉ cstr bs := by
  intro h
  have := List.mem_takeWhile_imp h
  simp at this

theorem mem_of_mem_cstr (h : b ∈ cstr bs) : b ∈ bs :=
  (List.takeWhile_sublist _).subset h

/-- Nothing behind a `NUL` belongs to the string. -/
theorem cstr_append_of_mem (h : 0 ∈ w) : cstr (w ++ rest) = cstr w := by
  unfold cstr
  rw [List.takeWhile_append, if_neg]
  intro hlen
  have hall : w.takeWhile (· ≠ 0) = w := (List.takeWhile_prefix _).eq_of_length hlen
  exact zero_notMem_cstr w (by rw [cstr, hall]; exact h)

/-- `%s` on a word that white space follows. -/
theorem scanWord_append (hne : w ≠ []) (hw : ∀ c ∈ w, isspace c = false) (hb : isspace b = true) :
    scanWord (w ++ b :: rest) = some (w, b :: rest) := by
  obtain ⟨c, cs, rfl⟩ := List.exists_cons_of_ne_nil hne
  have hword : ∀ d ∈ c :: cs, (!isspace d) = true := fun d hd => by simp [hw d hd]
  have hstart : ((c :: cs) ++ b :: rest).dropWhile isspace = (c :: cs) ++ b :: rest := by
    simp [hw c List.mem_cons_self]
  unfold scanWord
  rw [hstart]
  change some (((c :: cs) ++ b :: rest).takeWhile _, ((c :: cs) ++ b :: rest).dropWhile _) = _
  rw [List.takeWhile_append_of_pos hword, List.dropWhile_append_of_pos hword]
  simp [hb]

/-- `%s` skips the white space in front of its word. -/
theorem scanWord_cons (hb : isspace b = true) : scanWord (b :: rest) = scanWord rest := by
  unfold scanWord
  rw [List.dropWhile_cons_of_pos hb]

/-- The word of `%s` is not empty, and it and what is left come from the input. -/
theorem scanWord_spec {s : List UInt8} (h : scanWord s = some (w, rest)) :
    w ≠ [] ∧ (w ++ rest) <:+ s := by
  unfold scanWord at h
  cases hd : s.dropWhile isspace with
  | nil => simp [hd] at h
  | cons b bs =>
    have hb : isspace b = false := by
      have := List.head_dropWhile_not isspace (l := s) (by simp [hd])
      simpa [hd] using this
    simp only [hd, Option.some.injEq, Prod.mk.injEq] at h
    obtain ⟨rfl, rfl⟩ := h
    refine ⟨by simp [hb], ?_⟩
    rw [List.takeWhile_append_dropWhile, ← hd]
    exact List.dropWhile_suffix _

/-- What `index` finds cuts the string at the first such byte. -/
theorem index_eq_some {s a c : List UInt8} (h : index s b = some (a, c)) :
    cstr s = a ++ b :: c ∧ b ∉ a := by
  unfold index at h
  split at h
  · next hmem =>
    simp only [Option.some.injEq, Prod.mk.injEq] at h
    obtain ⟨rfl, rfl⟩ := h
    refine ⟨?_, fun hb => by simpa using List.mem_takeWhile_imp hb⟩
    have hne : (cstr s).dropWhile (· ≠ b) ≠ [] := by
      intro hnil
      have := List.dropWhile_eq_nil_iff.mp hnil b hmem
      simp at this
    obtain ⟨d, ds, hd⟩ := List.exists_cons_of_ne_nil hne
    -- the byte at which `takeWhile` stopped
    have hbd : d = b := by
      have hnot := List.head_dropWhile_not (· ≠ b) (l := cstr s) hne
      simp only [hd, List.head_cons] at hnot
      simpa using hnot
    conv_lhs => rw [← List.takeWhile_append_dropWhile (p := (· ≠ b)) (l := cstr s)]
    rw [hd, hbd, List.tail_cons]
  · cases h

theorem index_eq_none {s : List UInt8} (h : index s b = none) : b ∉ cstr s := by
  unfold index at h
  split at h
  · cases h
  · assumption

end Lemmas

/-- Two adjacent letters of a text put together from two parts lie in one of them, or where they
meet. -/
theorem pair_infix_append {α : Type} {x y : α} {a b : List α} (h : [x, y] <:+: a ++ b) :
    [x, y] <:+: a ∨ [x, y] <:+: b ∨ (a.getLast? = some x ∧ b.head? = some y) := by
  induction a with
  | nil => exact Or.inr (Or.inl h)
  | cons c a ih =>
    rw [List.cons_append, List.infix_cons_iff] at h
    rcases h with h | h
    · -- the pair stands at the front
      obtain ⟨rfl, hy⟩ := List.cons_prefix_cons.mp h
      cases a with
      | nil =>
        cases b with
        | nil => simp at hy
        | cons d b =>
          obtain ⟨rfl, -⟩ := List.cons_prefix_cons.mp hy
          exact Or.inr (Or.inr ⟨rfl, rfl⟩)
      | cons d a =>
        obtain ⟨rfl, -⟩ := List.cons_prefix_cons.mp hy
        exact Or.inl ⟨[], a, rfl⟩
    · rcases ih h with h | h | ⟨hlast, hhead⟩
      · exact Or.inl (List.infix_cons h)
      · exact Or.inr (Or.inl h)
      · refine Or.inr (Or.inr ⟨?_, hhead⟩)
        rw [List.getLast?_cons, hlast]
        rfl

end OsHomework
