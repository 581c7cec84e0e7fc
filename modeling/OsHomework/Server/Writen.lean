import OsHomework.Server.Rio

/-!
# Writing to the socket, and reading a number of bytes

`rio_writen`, `rio_readn` and `rio_readnb` of `segel.c`. A `write` may take fewer bytes than it is
given, and `rio_writen` goes on with the rest; a `read` may deliver fewer bytes than are asked for,
and the two readers go on until they have them all.

The socket of the writer is the list of what its next `write` calls answer. Whatever they answer,
the bytes that have been taken are a prefix of what was to be written, and the whole of it exactly
when the calls return (`writeAll_spec`). Together with the readers: what one side writes in any
pieces, the other side reads in any pieces (`readn_writeAll`).
-/

namespace OsHomework
namespace Server

/-- What one `write` answers. -/
inductive WriteAnswer
  /-- A result that is not positive, with `errno == EINTR`. -/
  | interrupted
  /-- A result that is not positive, with another `errno`. -/
  | failed
  /-- `more + 1` bytes are taken, or all that there are. -/
  | wrote (more : ℕ)
  deriving DecidableEq, Repr

/-- How writing ends. -/
inductive WriteStatus
  | ok
  /-- `-1`. -/
  | error
  /-- The call waits until the other side reads. -/
  | blocked
  deriving DecidableEq, Repr

/-- What has been written. -/
structure Written where
  /-- The bytes that the socket has taken. -/
  sent : List UInt8
  answers : List WriteAnswer
  status : WriteStatus
  deriving DecidableEq, Repr

/-- `rio_writen(fd, usrbuf, n)`, with the `n` bytes from `usrbuf` on. -/
def writen : List WriteAnswer → List UInt8 → Written
  | as, [] => ⟨[], as, .ok⟩
  | [], _ :: _ => ⟨[], [], .blocked⟩
  | .interrupted :: as, b :: bs => writen as (b :: bs)
  | .failed :: as, _ :: _ => ⟨[], as, .error⟩
  | .wrote more :: as, b :: bs =>
    -- `bufp` moves over the bytes that were taken
    let rest := writen as ((b :: bs).drop (more + 1))
    { rest with sent := (b :: bs).take (more + 1) ++ rest.sent }

/-- One `Rio_writen` after the other; the first that fails ends the process. -/
def writeAll : List WriteAnswer → List (List UInt8) → Written
  | as, [] => ⟨[], as, .ok⟩
  | as, chunk :: chunks =>
    let w := writen as chunk
    if w.status = .ok then
      let rest := writeAll w.answers chunks
      { rest with sent := w.sent ++ rest.sent }
    else w

namespace Rio

/-- The `while` loop of `rio_readn` on a descriptor without a buffer, with the bytes stored so
far. -/
def readnLoop (closed : Bool) : List ReadAnswer → (nleft : ℕ) → (got : List UInt8) →
    ReadResult (List UInt8)
  | as, 0, got => .ok got ⟨[], as, closed⟩
  | [], _ + 1, got => if closed then .ok got ⟨[], [], closed⟩ else .blocked
  | .interrupted :: as, nleft + 1, got => readnLoop closed as (nleft + 1) got
  | .failed :: as, _ + 1, _ => .error ⟨[], as, closed⟩
  | .data bs :: as, nleft + 1, got =>
    if bs = [] then .ok got ⟨[], as, closed⟩
    else if bs.length ≤ nleft + 1 then readnLoop closed as (nleft + 1 - bs.length) (got ++ bs)
    else
      -- `read` takes no more than is asked for and leaves the rest to the next call
      .ok (got ++ bs.take (nleft + 1)) ⟨[], .data (bs.drop (nleft + 1)) :: as, closed⟩

/-- `rio_readn(fd, usrbuf, n)`: the bytes stored in `usrbuf`, whose number is the result. -/
def readn (answers : List ReadAnswer) (closed : Bool) (n : ℕ) : ReadResult (List UInt8) :=
  readnLoop closed answers n []

/-- The `while` loop of `rio_readnb`. A round stores a byte or ends the loop, so that there are no
more than `nleft` of them. -/
def readnbLoop : (rounds : ℕ) → (nleft : ℕ) → (got : List UInt8) → Rio → ReadResult (List UInt8)
  | 0, _, got, r => .ok got r
  | rounds + 1, nleft, got, r =>
    if nleft = 0 then .ok got r
    else
      match r.read nleft with
      | .ok bs r => readnbLoop rounds (nleft - bs.length) (got ++ bs) r
      | .eof r => .ok got r
      | .error r => .error r
      | .blocked => .blocked

/-- `rio_readnb(rp, usrbuf, n)`. -/
def readnb (n : ℕ) (r : Rio) : ReadResult (List UInt8) := r.readnbLoop n n []

end Rio

/-! ### Writing -/

section Writing

variable {as : List WriteAnswer} {buf : List UInt8}

/-- What `rio_writen` has written is a prefix, and all of it exactly when it returns `n`. -/
theorem writen_spec (as : List WriteAnswer) (buf : List UInt8) :
    (writen as buf).sent <+: buf ∧ ((writen as buf).status = .ok ↔ (writen as buf).sent = buf) := by
  induction as generalizing buf with
  | nil =>
    cases buf with
    | nil => exact ⟨List.prefix_rfl, iff_of_true rfl rfl⟩
    | cons b bs => exact ⟨List.nil_prefix, iff_of_false nofun nofun⟩
  | cons a as ih =>
    cases buf with
    | nil => exact ⟨List.prefix_rfl, iff_of_true rfl rfl⟩
    | cons b bs =>
      cases a with
      | interrupted => exact ih (b :: bs)
      | failed => exact ⟨List.nil_prefix, iff_of_false nofun nofun⟩
      | wrote more =>
        obtain ⟨hpre, hiff⟩ := ih ((b :: bs).drop (more + 1))
        have hcut := List.take_append_drop (more + 1) (b :: bs)
        constructor
        · -- the bytes taken first, and a prefix of the rest
          calc (b :: bs).take (more + 1) ++ (writen as ((b :: bs).drop (more + 1))).sent
              <+: (b :: bs).take (more + 1) ++ (b :: bs).drop (more + 1) :=
                (List.prefix_append_right_inj _).mpr hpre
            _ = b :: bs := hcut
        · refine hiff.trans ⟨fun heq => ?_, fun heq => ?_⟩
          · show (b :: bs).take (more + 1) ++ _ = _
            rw [heq, hcut]
          · exact List.append_cancel_left ((show _ ++ _ = _ from heq).trans hcut.symm)

/-- **Several calls in a row.** Whatever the `write` calls answer, what the socket has taken is a
prefix of what was to be written, and the whole of it exactly when the calls return. -/
theorem writeAll_spec (as : List WriteAnswer) (chunks : List (List UInt8)) :
    (writeAll as chunks).sent <+: chunks.flatten ∧
      ((writeAll as chunks).status = .ok ↔ (writeAll as chunks).sent = chunks.flatten) := by
  induction chunks generalizing as with
  | nil => exact ⟨List.prefix_rfl, iff_of_true rfl rfl⟩
  | cons chunk chunks ih =>
    obtain ⟨hpre, hiff⟩ := writen_spec as chunk
    rw [writeAll, List.flatten_cons]
    by_cases hok : (writen as chunk).status = .ok
    · obtain ⟨hpre', hiff'⟩ := ih (writen as chunk).answers
      simp only [if_pos hok, hiff.mp hok]
      exact ⟨(List.prefix_append_right_inj _).mpr hpre', hiff'.trans (List.append_right_inj _).symm⟩
    · simp only [if_neg hok]
      refine ⟨hpre.trans (List.prefix_append _ _), iff_of_false hok fun heq => hok (hiff.mpr ?_)⟩
      -- a call that has stopped has taken less than its own text
      exact (hpre.eq_of_length_le (by rw [heq, List.length_append]; omega))

/-- How many of the answers take bytes. -/
def takers : List WriteAnswer → ℕ
  | [] => 0
  | .wrote _ :: as => takers as + 1
  | _ :: as => takers as

/-- As long as no `write` fails, `rio_writen` returns after at most one `write` a byte. -/
theorem writen_ok (hfail : .failed ∉ as) (hroom : buf.length ≤ takers as) :
    (writen as buf).status = .ok ∧ .failed ∉ (writen as buf).answers ∧
      takers as ≤ takers (writen as buf).answers + buf.length := by
  induction as generalizing buf with
  | nil =>
    obtain rfl := List.length_eq_zero_iff.mp (Nat.le_zero.mp hroom)
    exact ⟨rfl, hfail, le_rfl⟩
  | cons a as ih =>
    have htail : .failed ∉ as := fun hmem => hfail (List.mem_cons_of_mem _ hmem)
    cases buf with
    | nil => exact ⟨rfl, hfail, Nat.le_add_right _ _⟩
    | cons b bs =>
      cases a with
      | interrupted => exact ih htail hroom
      | failed => exact absurd List.mem_cons_self hfail
      | wrote more =>
        -- a `write` takes a byte at least
        have hlen : ((b :: bs).drop (more + 1)).length ≤ bs.length := by
          rw [List.drop_succ_cons, List.length_drop]
          exact Nat.sub_le _ _
        have hroom' : bs.length ≤ takers as := Nat.le_of_succ_le_succ hroom
        obtain ⟨hok, hfail', htakers⟩ := ih htail (hlen.trans hroom')
        refine ⟨hok, hfail', ?_⟩
        show takers as + 1 ≤ takers (writen as _).answers + (bs.length + 1)
        omega

theorem writeAll_ok {chunks : List (List UInt8)} (hfail : .failed ∉ as)
    (hroom : chunks.flatten.length ≤ takers as) : (writeAll as chunks).status = .ok := by
  induction chunks generalizing as with
  | nil => rfl
  | cons chunk chunks ih =>
    rw [List.flatten_cons, List.length_append] at hroom
    obtain ⟨hok, hfail', htakers⟩ := writen_ok hfail ((Nat.le_add_right _ _).trans hroom)
    rw [writeAll]
    simp only [if_pos hok]
    exact ih hfail' (by omega)

end Writing

/-! ### Reading -/

namespace Rio

variable {r : Rio} {s : List UInt8}

/-- A read of up to `n` bytes takes some of the first `n` bytes of the stream. -/
theorem Sends.read (h : r.Sends s) (hne : s ≠ []) {n : ℕ} (hn : 0 < n) :
    ∃ bs rest r', r.read n = .ok bs r' ∧ s = bs ++ rest ∧ bs ≠ [] ∧ bs.length ≤ n ∧
      r'.Sends rest := by
  -- the first bytes of a buffer that is not empty
  have hbuffer : ∀ b bs as, (⟨b :: bs, as, true⟩ : Rio).Sends s →
      s = (b :: bs).take n ++ ((b :: bs).drop n ++ delivered as) ∧ (b :: bs).take n ≠ [] ∧
        ((b :: bs).take n).length ≤ n ∧
        (⟨(b :: bs).drop n, as, true⟩ : Rio).Sends ((b :: bs).drop n ++ delivered as) := by
    intro b bs as hsends
    refine ⟨?_, ?_, List.length_take_le _ _, hsends.live, rfl, rfl⟩
    · rw [← List.append_assoc, List.take_append_drop]
      exact hsends.unread.symm
    · rw [Ne, List.take_eq_nil_iff, not_or]
      exact ⟨hn.ne', List.cons_ne_nil _ _⟩
  obtain ⟨buf, as, closed⟩ := r
  obtain rfl : closed = true := h.closed
  unfold Rio.read
  cases buf with
  | cons b bs =>
    obtain ⟨hs, hbs, hlen, hsends⟩ := hbuffer b bs as h
    exact ⟨_, _, _, rfl, hs, hbs, hlen, hsends⟩
  | nil =>
    have hdel : delivered as = s := h.unread
    obtain ⟨r₁, hfill, hlive₁, hunread, hbuf⟩ := refill_of_delivered true h.live (hdel ▸ hne)
    obtain ⟨buf₁, as₁, closed₁⟩ := r₁
    obtain rfl : closed₁ = true := refill_closed hfill
    obtain ⟨b, bs, rfl⟩ := List.exists_cons_of_ne_nil hbuf
    obtain ⟨hs, hbs, hlen, hsends⟩ := hbuffer b bs as₁ ⟨hlive₁, rfl, hunread.trans hdel⟩
    simp only [hfill]
    exact ⟨_, _, _, rfl, hs, hbs, hlen, hsends⟩

theorem Sends.read_eof (h : r.Sends []) {n : ℕ} : ∃ r', r.read n = .eof r' ∧ r'.Sends [] := by
  obtain ⟨hbuf, hdel⟩ := List.append_eq_nil_iff.mp h.unread
  refine ⟨⟨[], [], true⟩, ?_, fun a ha => absurd ha List.not_mem_nil, rfl, rfl⟩
  unfold Rio.read
  rw [hbuf, h.closed, refill_of_end h.live hdel]

/-- The loop of `rio_readnb` stores what is left to store, or the rest of the stream. -/
theorem Sends.readnbLoop (h : r.Sends s) {rounds nleft : ℕ} (hrounds : nleft ≤ rounds)
    (got : List UInt8) :
    ∃ r', r.readnbLoop rounds nleft got = .ok (got ++ s.take nleft) r' ∧
      r'.Sends (s.drop nleft) := by
  induction rounds generalizing r s nleft got with
  | zero =>
    obtain rfl := Nat.le_zero.mp hrounds
    exact ⟨r, by rw [Rio.readnbLoop, List.take_zero, List.append_nil], h⟩
  | succ rounds ih =>
    rw [Rio.readnbLoop]
    split_ifs with hn
    · rw [hn, List.take_zero, List.append_nil, List.drop_zero]
      exact ⟨r, rfl, h⟩
    · by_cases hne : s = []
      · -- the end of the stream
        subst hne
        obtain ⟨r', hread, hsends⟩ := h.read_eof
        rw [hread, List.take_nil, List.append_nil, List.drop_nil]
        exact ⟨r', rfl, hsends⟩
      · -- a round stores some bytes, and fewer are left to ask for
        obtain ⟨bs, rest, r₁, hread, rfl, hbs, hlen, hsends⟩ :=
          h.read hne (Nat.pos_of_ne_zero hn)
        have hpos := List.length_pos_of_ne_nil hbs
        obtain ⟨r', hloop, hsends'⟩ := ih hsends
          (show nleft - bs.length ≤ rounds by omega) (got ++ bs)
        rw [hread]
        refine ⟨r', ?_, ?_⟩
        · show r₁.readnbLoop rounds (nleft - bs.length) (got ++ bs) = _
          rw [hloop, List.append_assoc, List.take_append, List.take_of_length_le hlen]
        · rwa [List.drop_append, List.drop_of_length_le hlen, List.nil_append]

/-- **A number of bytes**, buffered: `rio_readnb` takes the first `n` bytes of the stream, or what
there is. -/
theorem Sends.readnb (h : r.Sends s) (n : ℕ) :
    ∃ r', r.readnb n = .ok (s.take n) r' ∧ r'.Sends (s.drop n) :=
  h.readnbLoop le_rfl []

/-- The loop of `rio_readn`. -/
theorem readnLoop_spec {as : List ReadAnswer} (hlive : ∀ a ∈ as, Delivers a) (nleft : ℕ)
    (got : List UInt8) :
    ∃ r', readnLoop true as nleft got = .ok (got ++ (delivered as).take nleft) r' ∧
      r'.Sends ((delivered as).drop nleft) := by
  induction as generalizing nleft got with
  | nil =>
    refine ⟨⟨[], [], true⟩, ?_, fun a ha => absurd ha List.not_mem_nil, rfl, ?_⟩
    · cases nleft <;> simp [readnLoop, delivered]
    · rw [delivered, List.drop_nil]
      rfl
  | cons a as ih =>
    have htail : ∀ a ∈ as, Delivers a := fun a ha => hlive a (List.mem_cons_of_mem _ ha)
    have hhead := hlive a List.mem_cons_self
    cases nleft with
    | zero =>
      refine ⟨⟨[], a :: as, true⟩, ?_, hlive, rfl, rfl⟩
      rw [readnLoop, List.take_zero, List.append_nil]
    | succ nleft =>
      cases a with
      | interrupted => exact ih htail (nleft + 1) got
      | failed => exact hhead.elim
      | data bs =>
        have hdel : delivered (.data bs :: as) = bs ++ delivered as := rfl
        rw [readnLoop, if_neg (show bs ≠ [] from hhead), hdel]
        split_ifs with hlen
        · obtain ⟨r', hloop, hsends⟩ := ih htail (nleft + 1 - bs.length) (got ++ bs)
          refine ⟨r', ?_, ?_⟩
          · rw [hloop, List.append_assoc, List.take_append, List.take_of_length_le hlen]
          · rwa [List.drop_append, List.drop_of_length_le hlen, List.nil_append]
        · -- the rest of the answer stays in the socket
          have hle : nleft + 1 ≤ bs.length := (not_le.mp hlen).le
          refine ⟨⟨[], .data (bs.drop (nleft + 1)) :: as, true⟩, ?_, fun a ha => ?_, rfl, ?_⟩
          · rw [List.take_append_of_le_length hle]
          · obtain rfl | ha := List.mem_cons.mp ha
            · exact fun hnil => hlen (List.drop_eq_nil_iff.mp hnil)
            · exact htail a ha
          · rw [List.drop_append_of_le_length hle]
            rfl

end Rio

/-- **From one side to the other.** Whatever the `write` calls of the one side answer, and however
the socket cuts what it has taken into `read` results of the other side, both readers store the same
bytes, the first `n` of what was written or fewer, and leave the same bytes unread; when all calls
of `Rio_writen` have returned, they store the first `n` bytes of what was to be written, and leave
the rest. -/
theorem readn_writeAll (ws : List WriteAnswer) (chunks : List (List UInt8))
    (answers : List ReadAnswer) (hlive : ∀ a ∈ answers, Rio.Delivers a)
    (hsent : Rio.delivered answers = (writeAll ws chunks).sent) (n : ℕ) :
    ∃ got r r', Rio.readn answers true n = .ok got r ∧
      (Rio.readinitb answers true).readnb n = .ok got r' ∧ r'.unread = r.unread ∧
      got <+: chunks.flatten.take n ∧
      ((writeAll ws chunks).status = .ok →
        got = chunks.flatten.take n ∧ r.unread = chunks.flatten.drop n) := by
  obtain ⟨hpre, hiff⟩ := writeAll_spec ws chunks
  -- both readers see one stream
  have hsends : (Rio.readinitb answers true).Sends (Rio.delivered answers) := ⟨hlive, rfl, rfl⟩
  obtain ⟨r, hreadn, hrest⟩ := Rio.readnLoop_spec hlive n []
  obtain ⟨r', hreadnb, hrest'⟩ := hsends.readnb n
  refine ⟨(Rio.delivered answers).take n, r, r', hreadn, hreadnb, ?_, ?_, fun hok => ?_⟩
  · rw [hrest.unread, hrest'.unread]
  · rw [hsent]
    exact hpre.take n
  · rw [hrest.unread, hsent, hiff.mp hok]
    exact ⟨rfl, rfl⟩

/-- Five bytes in two calls, of which the first needs three `write`s, read in two pieces. -/
theorem readn_writeAll_sample :
    ∃ got r, Rio.readn [.data [1, 2], .interrupted, .data [3, 4, 5]] true 4 = .ok got r ∧
      got = [1, 2, 3, 4] := by
  have hlive : ∀ a ∈ ([.data [1, 2], .interrupted, .data [3, 4, 5]] : List ReadAnswer),
      Rio.Delivers a := by
    simp [Rio.Delivers]
  obtain ⟨got, r, -, hread, -, -, -, hok⟩ :=
    readn_writeAll [.wrote 0, .interrupted, .wrote 0, .wrote 6, .wrote 1] [[1, 2, 3], [4, 5]] _
      hlive rfl 4
  exact ⟨got, r, hread, (hok rfl).1⟩

end Server
end OsHomework
