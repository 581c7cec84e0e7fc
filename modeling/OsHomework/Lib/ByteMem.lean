import Mathlib.Data.Set.Function
import Mathlib.Order.Interval.Set.Defs
import Mathlib.Tactic.Ring

/-!
# Byte-addressed memory and in-band records

An allocator keeps its headers in the memory it hands out, so its state is a flat array of bytes and
the fields of a header are little-endian words at fixed offsets. `Layout ι` is such a record type:
its fields `ι`, where each of them lies, and the proofs that they fit and do not overlap. `get` and
`set` read and write one field of the record at an address; the lemmas say what a write leaves
alone.
-/

namespace OsHomework

/-- The bytes of an address space. -/
abbrev Mem := ℕ → UInt8

/-- The range of a 64-bit word: of `size_t` and of a pointer. -/
def wordLimit : ℕ := 2 ^ 64

namespace Mem

/-- The `n` bytes from `a` on, read as a little-endian number. -/
def loadLE (m : Mem) (a : ℕ) : ℕ → ℕ
  | 0 => 0
  | n + 1 => (m a).toNat + 256 * loadLE m (a + 1) n

/-- Write the low `n` bytes of `v` at `a`. -/
def storeLE (m : Mem) (a n v : ℕ) : Mem := fun x =>
  if a ≤ x ∧ x < a + n then UInt8.ofNat (v / 256 ^ (x - a)) else m x

/-- `memset`: the `n` bytes from `a` on become `b`. -/
def fill (m : Mem) (a n : ℕ) (b : UInt8) : Mem := fun x =>
  if a ≤ x ∧ x < a + n then b else m x

/-- The `n` bytes from `dst` on become `bytes 0`, `bytes 1`, … -/
def blit (m : Mem) (dst n : ℕ) (bytes : ℕ → UInt8) : Mem := fun x =>
  if dst ≤ x ∧ x < dst + n then bytes (x - dst) else m x

/-- The `n` bytes from `a` on, in order. -/
def bytes (m : Mem) (a n : ℕ) : List UInt8 := (List.range n).map fun i => m (a + i)

@[simp] theorem length_bytes (m : Mem) (a n : ℕ) : (m.bytes a n).length = n := by
  simp [bytes]

theorem loadLE_congr {m m' : Mem} {a n : ℕ} (h : Set.EqOn m m' (Set.Ico a (a + n))) :
    m.loadLE a n = m'.loadLE a n := by
  induction n generalizing a with
  | zero => rfl
  | succ n ih =>
    have hhead : m a = m' a := h ⟨le_rfl, by omega⟩
    have htail : m.loadLE (a + 1) n = m'.loadLE (a + 1) n :=
      ih fun x hx => h ⟨by have := hx.1; omega, by have := hx.2; omega⟩
    rw [loadLE, loadLE, hhead, htail]

theorem loadLE_of_digits {m : Mem} {a n v : ℕ}
    (h : ∀ i, i < n → m (a + i) = UInt8.ofNat (v / 256 ^ i)) : m.loadLE a n = v % 256 ^ n := by
  induction n generalizing a v with
  | zero => simp [loadLE, Nat.mod_one]
  | succ n ih =>
    -- the lowest byte is the first one
    have hhead : (m a).toNat = v % 256 := by
      have := h 0 (by omega)
      rw [Nat.add_zero, pow_zero, Nat.div_one] at this
      rw [this, UInt8.toNat_ofNat']
    -- the other bytes are those of `v / 256`
    have htail : m.loadLE (a + 1) n = v / 256 % 256 ^ n := by
      apply ih
      intro i hi
      have := h (i + 1) (by omega)
      rw [show a + (i + 1) = a + 1 + i by ring] at this
      rw [this, Nat.div_div_eq_div_mul, pow_succ, Nat.mul_comm (256 ^ i)]
    rw [loadLE, hhead, htail, pow_succ, Nat.mul_comm (256 ^ n), Nat.mod_mul]

theorem loadLE_lt (m : Mem) (a n : ℕ) : m.loadLE a n < 256 ^ n := by
  induction n generalizing a with
  | zero => exact Nat.one_pos
  | succ n ih =>
    have hhead : (m a).toNat < 256 := UInt8.toNat_lt (m a)
    have htail := ih (a + 1)
    rw [loadLE, pow_succ]
    omega

theorem loadLE_storeLE (m : Mem) (a n v : ℕ) : (m.storeLE a n v).loadLE a n = v % 256 ^ n := by
  apply loadLE_of_digits
  intro i hi
  rw [storeLE, if_pos ⟨by omega, by omega⟩, Nat.add_sub_cancel_left]

/-- The bytes of a number that was read. -/
theorem ofNat_loadLE_div (m : Mem) (a : ℕ) {n i : ℕ} (h : i < n) :
    UInt8.ofNat (m.loadLE a n / 256 ^ i) = m (a + i) := by
  induction n generalizing a i with
  | zero => omega
  | succ n ih =>
    -- the first byte is below the base, so that dividing takes it away
    have hbyte : (m a).toNat < 256 := UInt8.toNat_lt (m a)
    rw [loadLE]
    cases i with
    | zero =>
      rw [pow_zero, Nat.div_one, ← UInt8.toNat_inj, UInt8.toNat_ofNat', Nat.add_zero a]
      omega
    | succ i =>
      have hdiv : ((m a).toNat + 256 * m.loadLE (a + 1) n) / 256 = m.loadLE (a + 1) n := by omega
      rw [pow_succ', ← Nat.div_div_eq_div_mul, hdiv, ih (a + 1) (by omega), Nat.add_assoc,
        Nat.add_comm 1 i]

/-- Writing back what was read. -/
theorem storeLE_loadLE (m : Mem) (a n : ℕ) : m.storeLE a n (m.loadLE a n) = m := by
  funext x
  rw [storeLE]
  split_ifs with hx
  · rw [ofNat_loadLE_div m a (by omega), Nat.add_sub_cancel' hx.1]
  · rfl

theorem storeLE_apply_out {m : Mem} {a n v x : ℕ} (h : x < a ∨ a + n ≤ x) :
    m.storeLE a n v x = m x := if_neg (by omega)

theorem fill_apply_out {m : Mem} {a n x : ℕ} {b : UInt8} (h : x < a ∨ a + n ≤ x) :
    m.fill a n b x = m x := if_neg (by omega)

theorem blit_apply_out {m : Mem} {a n x : ℕ} {f : ℕ → UInt8} (h : x < a ∨ a + n ≤ x) :
    m.blit a n f x = m x := if_neg (by omega)

theorem blit_apply {m : Mem} {a n i : ℕ} {f : ℕ → UInt8} (h : i < n) :
    m.blit a n f (a + i) = f i := by
  rw [blit, if_pos ⟨by omega, by omega⟩, Nat.add_sub_cancel_left]

/-- Bytes copied onto themselves. -/
theorem blit_self (m : Mem) (a n : ℕ) : m.blit a n (fun i => m (a + i)) = m := by
  funext x
  rw [blit]
  split_ifs with hx
  · rw [Nat.add_sub_cancel' hx.1]
  · rfl

theorem bytes_congr {m m' : Mem} {a n : ℕ} (h : Set.EqOn m m' (Set.Ico a (a + n))) :
    m.bytes a n = m'.bytes a n :=
  List.map_congr_left fun i hi =>
    h ⟨Nat.le_add_right a i, Nat.add_lt_add_left (List.mem_range.mp hi) a⟩

theorem take_bytes {m : Mem} {a n k : ℕ} (h : k ≤ n) : (m.bytes a n).take k = m.bytes a k := by
  rw [bytes, ← List.map_take, List.take_range, Nat.min_eq_left h, bytes]

/-- The bytes just written. -/
theorem bytes_blit {m : Mem} {a n k : ℕ} {f : ℕ → UInt8} (h : k ≤ n) :
    (m.blit a n f).bytes a k = (List.range k).map f := by
  exact List.map_congr_left fun i hi => blit_apply ((List.mem_range.mp hi).trans_le h)

theorem bytes_fill {m : Mem} {a n k : ℕ} {b : UInt8} (h : k ≤ n) :
    (m.fill a n b).bytes a k = List.replicate k b := by
  show (m.blit a n fun _ => b).bytes a k = List.replicate k b
  rw [bytes_blit h, List.map_const', List.length_range]

theorem bytes_update {m : Mem} {a n i : ℕ} {v : UInt8} :
    Mem.bytes (Function.update m (a + i) v) a n = (m.bytes a n).set i v := by
  apply List.ext_getElem (by simp)
  intro j h1 h2
  rw [List.getElem_set]
  simp only [bytes, List.getElem_map, List.getElem_range]
  by_cases hij : i = j
  · rw [if_pos hij, hij, Function.update_self]
  · rw [if_neg hij, Function.update_of_ne (by omega)]

end Mem

/-- The arguments of a `memcpy` or a `memmove`. -/
structure Copy where
  dst : ℕ
  src : ℕ
  len : ℕ

namespace Copy

/-- The addresses that a copy reads. -/
def reads (c : Copy) : Set ℕ := Set.Ico c.src (c.src + c.len)

/-- The addresses that a copy writes. -/
def writes (c : Copy) : Set ℕ := Set.Ico c.dst (c.dst + c.len)

/-- A copy that goes on behind the end of the part it starts in. -/
theorem not_reads_subset {c : Copy} {lo hi : ℕ} (hsrc : c.src ≤ hi) (hlen : hi < c.src + c.len) :
    ¬ c.reads ⊆ Set.Ico lo hi := by
  intro hsub
  have hmem : hi ∈ Set.Ico lo hi := hsub ⟨hsrc, hlen⟩
  exact lt_irrefl hi hmem.2

end Copy

/-- A record type laid out in memory: `size` bytes, with a byte range for each field. -/
structure Layout (ι : Type) where
  size : ℕ
  off : ι → ℕ
  width : ι → ℕ
  fits : ∀ i, off i + width i ≤ size
  disjoint : ∀ i j, i ≠ j → off i + width i ≤ off j ∨ off j + width j ≤ off i

namespace Layout

variable {ι : Type} (L : Layout ι)

/-- Field `i` of the record at `p`. -/
def get (i : ι) (m : Mem) (p : ℕ) : ℕ := m.loadLE (p + L.off i) (L.width i)

/-- Overwrite field `i` of the record at `p`. -/
def set (i : ι) (m : Mem) (p v : ℕ) : Mem := m.storeLE (p + L.off i) (L.width i) v

variable {L} {i j : ι} {m m' : Mem} {p q v : ℕ}

/-- A field holds what fits in it of what was written. -/
theorem get_set : L.get i (L.set i m p v) p = v % 256 ^ L.width i := Mem.loadLE_storeLE m _ _ v

theorem get_set_same (h : v < 256 ^ L.width i) : L.get i (L.set i m p v) p = v := by
  rw [get_set, Nat.mod_eq_of_lt h]

theorem get_set_of_ne (h : i ≠ j) : L.get j (L.set i m p v) p = L.get j m p := by
  refine Mem.loadLE_congr fun x hx => Mem.storeLE_apply_out ?_
  -- two fields of one record lie beside each other
  have hd := L.disjoint i j h
  have h1 := hx.1
  have h2 := hx.2
  omega

theorem get_set_of_apart (h : p + L.size ≤ q ∨ q + L.size ≤ p) :
    L.get j (L.set i m p v) q = L.get j m q := by
  refine Mem.loadLE_congr fun x hx => Mem.storeLE_apply_out ?_
  have hi := L.fits i
  have hj := L.fits j
  have h1 := hx.1
  have h2 := hx.2
  omega

/-- Writing a field leaves every other field alone, in this record and in those apart from it. -/
theorem get_set_other (hpq : p = q ∨ p + L.size ≤ q ∨ q + L.size ≤ p) (h : i ≠ j) :
    L.get j (L.set i m p v) q = L.get j m q := by
  obtain rfl | hpq := hpq
  · exact get_set_of_ne h
  · exact get_set_of_apart hpq

/-- A record is read from its own bytes only. -/
theorem get_congr (h : Set.EqOn m m' (Set.Ico p (p + L.size))) : L.get i m p = L.get i m' p := by
  refine Mem.loadLE_congr fun x hx => h ?_
  have hi := L.fits i
  exact ⟨(Nat.le_add_right p _).trans hx.1, hx.2.trans_le (by omega)⟩

/-- Writing the same field of memories that agree. -/
theorem set_eqOn {S : Set ℕ} (h : Set.EqOn m m' S) :
    Set.EqOn (L.set i m p v) (L.set i m' p v) S := by
  intro x hx
  rw [set, set, Mem.storeLE, Mem.storeLE, h hx]

/-- A write hides a difference in the field that is written. -/
theorem set_eq_of_eqOn (h : Set.EqOn m m' (Set.Ico (p + L.off i) (p + L.off i + L.width i))ᶜ) :
    L.set i m p v = L.set i m' p v := by
  funext x
  rw [set, set, Mem.storeLE, Mem.storeLE]
  split_ifs with hx
  · rfl
  · exact h hx

/-- A field set back to what it was. -/
theorem set_set_get (w : ℕ) : L.set i (L.set i m p w) p (L.get i m p) = m := by
  calc L.set i (L.set i m p w) p (L.get i m p)
      = L.set i m p (L.get i m p) := set_eq_of_eqOn fun x hx => if_neg hx
    _ = m := Mem.storeLE_loadLE m _ _

/-- Writing a field changes bytes of its own record only. -/
theorem set_apply_out {x : ℕ} (h : x < p ∨ p + L.size ≤ x) : L.set i m p v x = m x := by
  have hi := L.fits i
  exact Mem.storeLE_apply_out (by omega)

end Layout

end OsHomework
