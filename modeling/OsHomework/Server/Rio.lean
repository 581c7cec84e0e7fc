import OsHomework.Lib.CString

/-!
# The buffered reader

`rio_read`, `rio_readinitb` and `rio_readlineb` of `segel.c`. The socket is the
list of what its next `read` calls answer, and says whether the other side has
closed it after that: a `read` past the list answers `0` then, and blocks
otherwise.

The line reader takes its bytes one at a time out of a buffer that is refilled
whenever it is empty, so where the socket cuts the stream decides when `read` is
called. What is read does not depend on it: on a socket that only delivers bytes
(`Rio.Live`), `rio_read` of one byte takes the first byte of the stream
(`Rio.read_one`), and `rio_readlineb` its first line (`Rio.readlineb_spec`). On a
connection whose other side has closed (`Rio.Sends`) a line that does not fit is
taken in pieces, and the end of the stream is an answer too.
-/

namespace OsHomework
namespace Server

/-- What one `read` answers. -/
inductive ReadAnswer
  /-- `-1` with `errno == EINTR`. -/
  | interrupted
  /-- `-1` with another `errno`. -/
  | failed
  /-- The bytes that have arrived; none of them means end of file. -/
  | data (bytes : List UInt8)
  deriving DecidableEq, Repr

/-- `RIO_BUFSIZE`. -/
def rioBufsize : ℕ := 8192

/-- `MAXLINE`. -/
def maxline : ℕ := 8192

/-- `rio_t` with the socket behind its descriptor. -/
structure Rio where
  /-- The `rio_cnt` unread bytes from `rio_bufptr` on. -/
  buf : List UInt8
  answers : List ReadAnswer
  closed : Bool
  deriving DecidableEq, Repr

/-- How a call that reads from the socket ends. -/
inductive ReadResult (α : Type)
  | ok (value : α) (rio : Rio)
  /-- `0`. -/
  | eof (rio : Rio)
  /-- `-1`. -/
  | error (rio : Rio)
  /-- The call waits for bytes that are not there. -/
  | blocked
  deriving DecidableEq, Repr

namespace Rio

/-- `rio_readinitb`. -/
def readinitb (answers : List ReadAnswer) (closed : Bool) : Rio := ⟨[], answers, closed⟩

/-- The refill loop of `rio_read`: `read` is called again after `EINTR`. -/
def refill (closed : Bool) : List ReadAnswer → ReadResult Unit
  | [] => if closed then .eof ⟨[], [], closed⟩ else .blocked
  | .interrupted :: as => refill closed as
  | .failed :: as => .error ⟨[], as, closed⟩
  | .data [] :: as => .eof ⟨[], as, closed⟩
  | .data (b :: bs) :: as =>
    -- `read` takes no more than the buffer holds and leaves the rest to the next call
    if (b :: bs).length ≤ rioBufsize then .ok () ⟨b :: bs, as, closed⟩
    else .ok () ⟨(b :: bs).take rioBufsize, .data ((b :: bs).drop rioBufsize) :: as, closed⟩

/-- `rio_read(rp, usrbuf, n)`, with the bytes copied to `usrbuf`. -/
def read (n : ℕ) (r : Rio) : ReadResult (List UInt8) :=
  match r.buf with
  | [] =>
    match refill r.closed r.answers with
    | .ok () r => .ok (r.buf.take n) { r with buf := r.buf.drop n }
    | .eof r => .eof r
    | .error r => .error r
    | .blocked => .blocked
  | b :: bs => .ok ((b :: bs).take n) { r with buf := (b :: bs).drop n }

/-- The `for` loop of `rio_readlineb`, with `left` rounds to go and `line` the
bytes stored so far. -/
def readlineLoop : (left : ℕ) → (line : List UInt8) → Rio → ReadResult (ℕ × List UInt8)
  | 0, line, r => .ok (line.length + 1, line) r
  | left + 1, line, r =>
    match r.read 1 with
    | .ok (c :: _) r =>
      if c = newline then .ok (line.length + 1, line ++ [c]) r
      else readlineLoop left (line ++ [c]) r
    | .ok [] r => .error r
    | .eof r =>
      -- end of file after some bytes ends the line, `n` being one more than their number
      if line = [] then .eof r else .ok (line.length + 1, line) r
    | .error r => .error r
    | .blocked => .blocked

/-- `rio_readlineb(rp, usrbuf, maxlen)`: the returned number and the bytes stored
in `usrbuf` in front of the terminator. When it returns `0` or `-1` the array is
left as it was. -/
def readlineb (maxlen : ℕ) (r : Rio) : ReadResult (ℕ × List UInt8) :=
  r.readlineLoop (maxlen - 1) []

/-! ### The stream behind the buffer -/

/-- The bytes the answers deliver. -/
def delivered : List ReadAnswer → List UInt8
  | [] => []
  | .data bs :: as => bs ++ delivered as
  | _ :: as => delivered as

/-- The bytes that have been sent and not yet been read. -/
def unread (r : Rio) : List UInt8 := r.buf ++ delivered r.answers

/-- A `read` that delivers bytes, or is interrupted. -/
def Delivers : ReadAnswer → Prop
  | .interrupted => True
  | .failed => False
  | .data bs => bs ≠ []

/-- Every `read` still to come delivers bytes or is interrupted. -/
def Live (r : Rio) : Prop := ∀ a ∈ r.answers, Delivers a

/-- A live socket with bytes on the way refills the buffer, and loses none of them. -/
theorem refill_of_delivered (closed : Bool) {as : List ReadAnswer} (hlive : ∀ a ∈ as, Delivers a)
    (hne : delivered as ≠ []) :
    ∃ r, refill closed as = .ok () r ∧ r.Live ∧ r.unread = delivered as ∧ r.buf ≠ [] := by
  induction as with
  | nil => exact absurd rfl hne
  | cons a as ih =>
    have htail : ∀ a ∈ as, Delivers a := fun a ha => hlive a (List.mem_cons_of_mem _ ha)
    have hhead := hlive a List.mem_cons_self
    cases a with
    -- the loop calls `read` again
    | interrupted => exact ih htail hne
    | failed => exact hhead.elim
    | data bs =>
      obtain ⟨b, bs, rfl⟩ := List.exists_cons_of_ne_nil hhead
      by_cases hfit : (b :: bs).length ≤ rioBufsize
      · exact ⟨⟨b :: bs, as, closed⟩, by simp only [refill, if_pos hfit], htail, rfl, by simp⟩
      · -- more than the buffer holds: the rest stays in the socket
        refine ⟨⟨(b :: bs).take rioBufsize, .data ((b :: bs).drop rioBufsize) :: as, closed⟩,
          by simp only [refill, if_neg hfit], ?_, ?_, by simp [rioBufsize]⟩
        · intro a ha
          rcases List.mem_cons.mp ha with rfl | ha
          · exact fun hnil => hfit (List.drop_eq_nil_iff.mp hnil)
          · exact htail a ha
        · change (b :: bs).take rioBufsize ++ ((b :: bs).drop rioBufsize ++ delivered as) = _
          rw [← List.append_assoc, List.take_append_drop]
          rfl

/-- **One byte**: on a live socket `rio_read` of one byte takes the first unread byte, wherever the
stream is cut. -/
theorem read_one {r : Rio} {c : UInt8} {rest : List UInt8} (hlive : r.Live)
    (h : r.unread = c :: rest) : ∃ r', r.read 1 = .ok [c] r' ∧ r'.Live ∧ r'.unread = rest := by
  unfold read
  cases hbuf : r.buf with
  | cons b bs =>
    obtain ⟨rfl, hrest⟩ : b = c ∧ bs ++ delivered r.answers = rest := by
      simpa [unread, hbuf] using h
    exact ⟨_, rfl, hlive, hrest⟩
  | nil =>
    -- the buffer is empty: the byte is the first one of the next answer
    have hdel : delivered r.answers = c :: rest := by simpa [unread, hbuf] using h
    obtain ⟨r₁, hfill, hlive₁, hunread, hne⟩ :=
      refill_of_delivered r.closed hlive (by simp [hdel])
    obtain ⟨b, bs, hbs⟩ := List.exists_cons_of_ne_nil hne
    obtain ⟨rfl, hrest⟩ : b = c ∧ bs ++ delivered r₁.answers = rest := by
      simpa [unread, hbs, hdel] using hunread
    refine ⟨{ r₁ with buf := bs }, ?_, hlive₁, hrest⟩
    simp only [hfill, hbs]
    rfl

/-- The loop on the rest of a line. -/
theorem readlineLoop_spec {r : Rio} {line rest : List UInt8} (hline : newline ∉ line)
    (hlive : r.Live) (h : r.unread = line ++ newline :: rest) (left : ℕ) (acc : List UInt8)
    (hleft : line.length < left) :
    ∃ n r', r.readlineLoop left acc = .ok (n, acc ++ line ++ [newline]) r' ∧ r'.Live ∧
      r'.unread = rest := by
  induction line generalizing r left acc with
  -- the line feed ends the loop
  | nil =>
    obtain ⟨left, rfl⟩ := Nat.exists_eq_add_of_lt hleft
    obtain ⟨r', hread, hlive', hrest⟩ := read_one hlive h
    refine ⟨acc.length + 1, r', ?_, hlive', hrest⟩
    simp [readlineLoop, hread]
  -- one byte of the line, and the rest by induction
  | cons c line ih =>
    obtain ⟨left, rfl⟩ := Nat.exists_eq_add_of_lt hleft
    obtain ⟨r₁, hread, hlive₁, hrest₁⟩ := read_one hlive h
    have hc : c ≠ newline := fun hc => hline (hc ▸ List.mem_cons_self)
    obtain ⟨n, r', hloop, hlive', hrest⟩ :=
      ih (fun hmem => hline (List.mem_cons_of_mem _ hmem)) hlive₁ hrest₁
        ((c :: line).length + left) (acc ++ [c]) (by simp; omega)
    refine ⟨n, r', ?_, hlive', hrest⟩
    simp only [readlineLoop, hread, if_neg hc, hloop]
    simp

/-- **One line**: on a live socket `rio_readlineb` reads the first line, when the array is large
enough for it. -/
theorem readlineb_spec {r : Rio} {line rest : List UInt8} {maxlen : ℕ} (hline : newline ∉ line)
    (hlive : r.Live) (h : r.unread = line ++ newline :: rest) (hfit : line.length + 1 < maxlen) :
    ∃ n r', r.readlineb maxlen = .ok (n, line ++ [newline]) r' ∧ r'.Live ∧ r'.unread = rest := by
  obtain ⟨n, r', hloop, hlive', hrest⟩ :=
    readlineLoop_spec hline hlive h (maxlen - 1) [] (by omega)
  exact ⟨n, r', by simpa [readlineb] using hloop, hlive', hrest⟩

/-! ### A connection that the client has closed -/

/-- The connection delivers `s`, and then the end of the stream. -/
structure Sends (r : Rio) (s : List UInt8) : Prop where
  live : r.Live
  closed : r.closed = true
  unread : r.unread = s

/-- The part of a stream that `rio_readlineb` takes with room for `m` bytes, and
what it leaves: it stops behind a line feed, when the room is used up, and at the
end. -/
def piece : ℕ → List UInt8 → List UInt8 × List UInt8
  | 0, s => ([], s)
  | _ + 1, [] => ([], [])
  | m + 1, b :: s => if b = newline then ([b], s) else (b :: (piece m s).1, (piece m s).2)

theorem refill_closed {closed : Bool} {as : List ReadAnswer} {r : Rio}
    (h : refill closed as = .ok () r) : r.closed = closed := by
  induction as with
  | nil =>
    unfold refill at h
    split at h <;> cases h
  | cons a as ih =>
    rcases a with _ | _ | (_ | ⟨b, bs⟩)
    · exact ih h
    · cases h
    · cases h
    · unfold refill at h
      split at h <;> (cases h; rfl)

theorem read_closed {n : ℕ} {r r' : Rio} {bs : List UInt8} (h : r.read n = .ok bs r') :
    r'.closed = r.closed := by
  unfold read at h
  cases hbuf : r.buf with
  | cons b bs =>
    simp only [hbuf] at h
    cases h
    rfl
  | nil =>
    simp only [hbuf] at h
    cases hfill : refill r.closed r.answers with
    | ok u r₁ =>
      simp only [hfill] at h
      have hclosed : r₁.closed = r.closed := refill_closed hfill
      cases h
      exact hclosed
    | eof _ | error _ | blocked => simp [hfill] at h

/-- When all bytes have been delivered only interrupted calls are left. -/
theorem refill_of_end {as : List ReadAnswer} (hlive : ∀ a ∈ as, Delivers a)
    (h : delivered as = []) : refill true as = .eof ⟨[], [], true⟩ := by
  induction as with
  | nil => rfl
  | cons a as ih =>
    have htail : ∀ a ∈ as, Delivers a := fun a ha => hlive a (List.mem_cons_of_mem _ ha)
    have hhead := hlive a List.mem_cons_self
    cases a with
    | interrupted => exact ih htail h
    | failed => exact hhead.elim
    | data bs => exact absurd (List.append_eq_nil_iff.mp h).1 hhead

namespace Sends

variable {r : Rio} {s : List UInt8}

theorem read_byte {c : UInt8} (h : r.Sends (c :: s)) : ∃ r', r.read 1 = .ok [c] r' ∧
    r'.Sends s := by
  obtain ⟨r', hread, hlive, hunread⟩ := read_one h.live h.unread
  exact ⟨r', hread, hlive, (read_closed hread).trans h.closed, hunread⟩

theorem read_end (h : r.Sends []) : ∃ r', r.read 1 = .eof r' ∧ r'.Sends [] := by
  obtain ⟨hbuf, hdel⟩ := List.append_eq_nil_iff.mp h.unread
  have hfill := refill_of_end h.live hdel
  refine ⟨⟨[], [], true⟩, ?_, ?_, rfl, rfl⟩
  · unfold read
    rw [hbuf, h.closed, hfill]
  · exact fun a ha => absurd ha List.not_mem_nil

/-- The loop of the line reader takes one piece of the stream. -/
theorem readlineLoop (h : r.Sends s) (left : ℕ) (acc : List UInt8) (hne : acc ≠ [] ∨ s ≠ []) :
    ∃ n r', r.readlineLoop left acc = .ok (n, acc ++ (piece left s).1) r' ∧
      r'.Sends (piece left s).2 := by
  induction left generalizing r s acc with
  | zero => exact ⟨acc.length + 1, r, by simp [Rio.readlineLoop, piece], h⟩
  | succ left ih =>
    cases s with
    | nil =>
      -- the stream ends inside a line
      obtain ⟨r', hread, hsends⟩ := h.read_end
      have hacc : acc ≠ [] := hne.resolve_right (not_not.mpr rfl)
      refine ⟨acc.length + 1, r', ?_, hsends⟩
      simp [Rio.readlineLoop, hread, hacc, piece]
    | cons b s =>
      obtain ⟨r₁, hread, hsends₁⟩ := h.read_byte
      by_cases hb : b = newline
      · refine ⟨acc.length + 1, r₁, ?_, ?_⟩
        · simp [Rio.readlineLoop, hread, hb, piece]
        · simpa [piece, hb] using hsends₁
      · obtain ⟨n, r', hloop, hsends⟩ := ih hsends₁ (acc ++ [b]) (Or.inl (by simp))
        refine ⟨n, r', ?_, ?_⟩
        · simp only [Rio.readlineLoop, hread, if_neg hb, hloop, piece]
          simp
        · simpa [piece, hb] using hsends

/-- **One piece**: as long as the stream has not ended, `rio_readlineb` takes its next piece. -/
theorem readlineb (h : r.Sends s) (hne : s ≠ []) (maxlen : ℕ) :
    ∃ n r', r.readlineb maxlen = .ok (n, (piece (maxlen - 1) s).1) r' ∧
      r'.Sends (piece (maxlen - 1) s).2 :=
  h.readlineLoop (maxlen - 1) [] (Or.inr hne)

/-- At the end of the stream it returns `0`. -/
theorem readlineb_end (h : r.Sends []) {maxlen : ℕ} (hmax : 1 < maxlen) :
    ∃ r', r.readlineb maxlen = .eof r' ∧ r'.Sends [] := by
  obtain ⟨m, rfl⟩ := Nat.exists_eq_add_of_le' hmax
  obtain ⟨r', hread, hsends⟩ := h.read_end
  refine ⟨r', ?_, hsends⟩
  simp [Rio.readlineb, Rio.readlineLoop, hread]

end Sends

end Rio

end Server
end OsHomework
