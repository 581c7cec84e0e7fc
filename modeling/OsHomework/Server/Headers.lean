import OsHomework.Server.Request

/-!
# Where header reading ends

`requestReadhdrs` calls the line reader until the array holds `"\r\n"`. Two
things decide whether it returns on a finite stream, and where.

* At the end of the stream `rio_readlineb` returns `0` and leaves the array as it
  was, so the loop compares the same line again, without end.
* A line that does not fit the array is handed out in pieces of `MAXLINE - 1`
  bytes, and a last piece that is `"\r\n"` is taken for the blank line.

So the loop returns exactly when some line *ends blank* (`EndsBlank`): it is the
blank line, or its last piece is `"\r\n"`. `HeadersEnd` says that the first such
line is where the headers end.
-/

namespace OsHomework
namespace Server

open Rio

/-! ### Where the headers should end -/

/-- What is left of a stream behind its first line that is exactly `"\r\n"`,
nothing when there is none. The flag tells whether a line begins here. -/
def afterHeaders : (start : Bool) → List UInt8 → List UInt8
  | _, [] => []
  | start, b :: s =>
    if start = true ∧ b = 13 ∧ s.head? = some newline then s.tail
    else afterHeaders (b = newline) s

/-- A line, with its line feed. -/
def IsLine (line : List UInt8) : Prop := ∃ body, newline ∉ body ∧ line = body ++ [newline]

/-- The number of bytes of a line that fit the array. -/
def pieceLen : ℕ := maxline - 1

/-- The last piece the line reader makes of the line is `"\r\n"`. -/
def EndsBlank (line : List UInt8) : Prop := line.length % pieceLen = 2 ∧ crlf <:+ line

/-- The first line that ends blank is the blank line, or it is the last line of
the stream. -/
def HeadersEnd (s : List UInt8) : Prop :=
  ∃ (lines : List (List UInt8)) (line rest : List UInt8),
    s = lines.flatten ++ (line ++ rest) ∧
    (∀ l ∈ lines, IsLine l ∧ ¬ EndsBlank l) ∧ IsLine line ∧
    (line = crlf ∨ EndsBlank line ∧ rest = [])

/-! ### Streams as lines -/

theorem crlf_eq : crlf = [13, newline] := by decide

theorem isLine_crlf : IsLine crlf := ⟨[13], by decide, crlf_eq⟩

theorem endsBlank_crlf : EndsBlank crlf := ⟨by decide, List.suffix_rfl⟩

/-- The rest of a line is skipped. -/
theorem afterHeaders_false_append {body : List UInt8} (h : newline ∉ body) (s : List UInt8) :
    afterHeaders false (body ++ newline :: s) = afterHeaders true s := by
  induction body with
  | nil => simp [afterHeaders]
  | cons b body ih =>
    have hb : b ≠ newline := fun hb => h (hb ▸ List.mem_cons_self)
    rw [List.cons_append, afterHeaders, if_neg (by simp), decide_eq_false hb]
    exact ih fun hmem => h (List.mem_cons_of_mem _ hmem)

theorem afterHeaders_crlf (s : List UInt8) : afterHeaders true (crlf ++ s) = s := by
  rw [crlf_eq]
  simp [afterHeaders]

/-- A line that is not blank is skipped. -/
theorem afterHeaders_append {line : List UInt8} (h : IsLine line) (hne : line ≠ crlf)
    (s : List UInt8) : afterHeaders true (line ++ s) = afterHeaders true s := by
  obtain ⟨body, hbody, rfl⟩ := h
  rw [List.append_assoc, List.singleton_append]
  cases body with
  | nil =>
    have hfirst : newline ≠ 13 := by decide
    simp [afterHeaders, hfirst]
  | cons b body =>
    have hb : b ≠ newline := fun hb => hbody (hb ▸ List.mem_cons_self)
    have hrest : newline ∉ body := fun hmem => hbody (List.mem_cons_of_mem _ hmem)
    -- a carriage return in front of the line feed would be the blank line
    have hnot : ¬ (true = true ∧ b = 13 ∧ (body ++ newline :: s).head? = some newline) := by
      rintro ⟨-, rfl, hhead⟩
      cases body with
      | nil => exact hne crlf_eq.symm
      | cons c body =>
        have hc : c = newline := by simpa using hhead
        exact hrest (hc ▸ List.mem_cons_self)
    rw [List.cons_append, afterHeaders, if_neg hnot, decide_eq_false hb]
    exact afterHeaders_false_append hrest s

/-- Behind its first byte a stream has fewer bytes. -/
theorem length_afterHeaders_lt (start : Bool) {s : List UInt8} (h : s ≠ []) :
    (afterHeaders start s).length < s.length := by
  induction s generalizing start with
  | nil => exact absurd rfl h
  | cons b s ih =>
    unfold afterHeaders
    split
    · rw [List.length_tail, List.length_cons]
      omega
    · cases s with
      | nil => simp [afterHeaders]
      | cons c s =>
        have hlt := ih (decide (b = newline)) (List.cons_ne_nil c s)
        exact hlt.trans (Nat.lt_succ_self _)

/-- Every stream is a number of lines that do not end blank, followed by one that
does, or by bytes without a line feed. -/
theorem exists_lines (s : List UInt8) :
    ∃ (lines : List (List UInt8)) (t : List UInt8), s = lines.flatten ++ t ∧
      (∀ l ∈ lines, IsLine l ∧ ¬ EndsBlank l) ∧
      (newline ∉ t ∨ ∃ line rest, t = line ++ rest ∧ IsLine line ∧ EndsBlank line) := by
  induction hn : s.length using Nat.strong_induction_on generalizing s with
  | _ n ih =>
    by_cases hmem : newline ∈ s
    · obtain ⟨body, rest, rfl, hbody⟩ := List.eq_append_cons_of_mem hmem
      have hline : IsLine (body ++ [newline]) := ⟨body, hbody, rfl⟩
      have hcut : body ++ newline :: rest = (body ++ [newline]) ++ rest := by simp
      by_cases hblank : EndsBlank (body ++ [newline])
      · exact ⟨[], body ++ newline :: rest, rfl, by simp,
          Or.inr ⟨body ++ [newline], rest, hcut, hline, hblank⟩⟩
      · -- the first line does not end blank: go on behind it
        obtain ⟨lines, t, hs, hlines, ht⟩ := ih rest.length (by simp at hn; omega) rest rfl
        refine ⟨(body ++ [newline]) :: lines, t, ?_, ?_, ht⟩
        · rw [hcut, hs, List.flatten_cons]
          simp only [List.append_assoc]
        · intro l hl
          rcases List.mem_cons.mp hl with rfl | hl
          · exact ⟨hline, hblank⟩
          · exact hlines l hl
    · exact ⟨[], s, rfl, by simp, Or.inl hmem⟩

/-! ### Lines in pieces -/

/-- A line that fits ends blank only if it is the blank line. -/
theorem endsBlank_iff_of_le {line : List UInt8} (h : line.length ≤ pieceLen) :
    EndsBlank line ↔ line = crlf := by
  constructor
  · rintro ⟨hlen, hsuf⟩
    have h2 : line.length = 2 := by
      rcases Nat.lt_or_eq_of_le h with hlt | heq
      · rwa [Nat.mod_eq_of_lt hlt] at hlen
      · rw [heq, Nat.mod_self] at hlen
        cases hlen
    exact (hsuf.eq_of_length (by rw [h2]; rfl)).symm
  · rintro rfl
    exact endsBlank_crlf

/-- A longer one ends blank if what is left behind its first piece does. -/
theorem endsBlank_drop_iff {line : List UInt8} (h : pieceLen < line.length) :
    EndsBlank (line.drop pieceLen) ↔ EndsBlank line := by
  unfold EndsBlank
  have hmod : (line.drop pieceLen).length % pieceLen = line.length % pieceLen := by
    rw [List.length_drop]
    exact (Nat.mod_eq_sub_mod h.le).symm
  rw [hmod]
  refine and_congr_right fun hlen => ⟨fun hsuf => hsuf.trans (List.drop_suffix _ _), fun hsuf => ?_⟩
  -- at least two bytes are left, and they are the last two of the line
  have hlt : pieceLen + 2 ≤ line.length := by
    by_contra hcon
    have hone : line.length = pieceLen + 1 := by omega
    rw [hone] at hlen
    exact absurd hlen (by decide)
  apply List.suffix_of_suffix_length_le hsuf (List.drop_suffix _ _)
  rw [List.length_drop, crlf_eq, List.length_cons, List.length_singleton]
  omega

/-- The first piece of a line. -/
theorem piece_line {body : List UInt8} (h : newline ∉ body) (m : ℕ) (rest : List UInt8) :
    piece m (body ++ newline :: rest) =
      if body.length < m then (body ++ [newline], rest)
      else (body.take m, body.drop m ++ newline :: rest) := by
  induction body generalizing m with
  | nil =>
    cases m with
    | zero => rfl
    | succ m => simp [piece]
  | cons b body ih =>
    have hb : b ≠ newline := fun hb => h (hb ▸ List.mem_cons_self)
    cases m with
    | zero => rfl
    | succ m =>
      rw [List.cons_append, piece, if_neg hb, ih fun hmem => h (List.mem_cons_of_mem _ hmem)]
      by_cases hlt : body.length < m
      · simp [hlt]
      · simp [hlt]

/-- The pieces of a text without a line feed have none. -/
theorem newline_notMem_piece {t : List UInt8} (h : newline ∉ t) (m : ℕ) :
    newline ∉ (piece m t).1 ∧ newline ∉ (piece m t).2 := by
  induction t generalizing m with
  | nil => cases m <;> exact ⟨h, h⟩
  | cons b t ih =>
    have hb : b ≠ newline := fun hb => h (hb ▸ List.mem_cons_self)
    cases m with
    | zero => exact ⟨List.not_mem_nil, h⟩
    | succ m =>
      obtain ⟨h1, h2⟩ := ih (fun hmem => h (List.mem_cons_of_mem _ hmem)) m
      rw [piece, if_neg hb]
      refine ⟨fun hmem => ?_, h2⟩
      rcases List.mem_cons.mp hmem with heq | hmem
      · exact hb heq.symm
      · exact h1 hmem

theorem strEq_crlf_of_notMem {x : List UInt8} (h : newline ∉ x) : strEq x crlf = false := by
  refine decide_eq_false fun heq => h (mem_of_mem_cstr ?_)
  rw [heq]
  decide

/-- The comparison with `"\r\n"` finds a blank line and no other. -/
theorem strEq_crlf_iff {line : List UInt8} (h : IsLine line) :
    strEq line crlf = true ↔ line = crlf := by
  have hcrlf : cstr crlf = crlf := by decide
  unfold strEq
  rw [decide_eq_true_iff, hcrlf]
  constructor
  · intro heq
    obtain ⟨body, hbody, rfl⟩ := h
    -- the line feed at the end is compared, so there is no `NUL` in front of it
    have hnul : (0 : UInt8) ∉ body := by
      intro hmem
      rw [cstr_append_of_mem hmem] at heq
      refine hbody (mem_of_mem_cstr ?_)
      rw [heq]
      decide
    rw [← heq]
    refine (cstr_eq_self ?_).symm
    rw [List.mem_append, not_or]
    exact ⟨hnul, by decide⟩
  · rintro rfl
    exact hcrlf

/-! ### The loop on a stream -/

section

variable {r : Rio}

/-- One round with bytes left: it takes a piece and compares it. -/
theorem readhdrsLoop_piece {s : List UInt8} (h : r.Sends s) (hne : s ≠ []) :
    ∃ r', r'.Sends (piece pieceLen s).2 ∧ ∀ fuel buf,
      readhdrsLoop (fuel + 1) buf r =
        if strEq (piece pieceLen s).1 crlf then .returned () r'
        else readhdrsLoop fuel (some (piece pieceLen s).1) r' := by
  obtain ⟨n, r', hread, hsends⟩ := h.readlineb hne maxline
  refine ⟨r', hsends, fun fuel buf => ?_⟩
  rw [readhdrsLoop, hread]
  rfl

/-- **A whole line**: the loop returns behind it if it ends blank, and goes on behind it with
another line in the array if not. -/
theorem readhdrsLoop_line {line rest : List UInt8} (hline : IsLine line)
    (h : r.Sends (line ++ rest)) :
    ∃ k r', r'.Sends rest ∧
      (EndsBlank line → ∀ fuel buf, readhdrsLoop (fuel + k) buf r = .returned () r') ∧
      (¬ EndsBlank line → ∃ x, strEq x crlf = false ∧
        ∀ fuel buf, readhdrsLoop (fuel + k) buf r = readhdrsLoop fuel (some x) r') := by
  induction hn : line.length using Nat.strong_induction_on generalizing line r with
  | _ n ih =>
    have hne : line ++ rest ≠ [] := by
      obtain ⟨body, -, rfl⟩ := hline
      simp
    obtain ⟨r₁, hsends₁, hround⟩ := readhdrsLoop_piece h hne
    obtain ⟨body, hbody, hbodyline⟩ := id hline
    have hcut : line ++ rest = body ++ newline :: rest := by simp [hbodyline]
    have hlen : line.length = body.length + 1 := by simp [hbodyline]
    rw [hcut, piece_line hbody] at hsends₁ hround
    by_cases hfit : body.length < pieceLen
    · -- the piece is the line
      rw [if_pos hfit, ← hbodyline] at hsends₁ hround
      have hblank := endsBlank_iff_of_le (show line.length ≤ pieceLen by omega)
      refine ⟨1, r₁, hsends₁, fun hends fuel buf => ?_, fun hends => ⟨line, ?_, fun fuel buf => ?_⟩⟩
      · rw [hround, if_pos ((strEq_crlf_iff hline).mpr (hblank.mp hends))]
      · rw [← Bool.not_eq_true, strEq_crlf_iff hline]
        exact fun heq => hends (hblank.mpr heq)
      · have hno : ¬ strEq line crlf = true := by
          rw [strEq_crlf_iff hline]
          exact fun heq => hends (hblank.mpr heq)
        rw [hround, if_neg hno]
    · -- the piece has no line feed, and the rest of the line is a shorter one
      rw [if_neg hfit] at hsends₁ hround
      have htake : strEq (body.take pieceLen) crlf = false :=
        strEq_crlf_of_notMem fun hmem => hbody (List.mem_of_mem_take hmem)
      have hdropline : IsLine (body.drop pieceLen ++ [newline]) :=
        ⟨body.drop pieceLen, fun hmem => hbody (List.mem_of_mem_drop hmem), rfl⟩
      have hdrop : line.drop pieceLen = body.drop pieceLen ++ [newline] := by
        rw [hbodyline, List.drop_append_of_le_length (by omega)]
      have hiff : EndsBlank (body.drop pieceLen ++ [newline]) ↔ EndsBlank line := by
        rw [← hdrop]
        exact endsBlank_drop_iff (by omega)
      have hpos : 0 < pieceLen := by decide
      obtain ⟨k, r', hsends, hstop, hgo⟩ := ih (body.drop pieceLen ++ [newline]).length
        (by rw [← hdrop, List.length_drop]; omega) hdropline
        (show r₁.Sends ((body.drop pieceLen ++ [newline]) ++ rest) by simpa using hsends₁) rfl
      refine ⟨k + 1, r', hsends, fun hends fuel buf => ?_, fun hends => ?_⟩
      · rw [← Nat.add_assoc, hround, htake, if_neg (by decide)]
        exact hstop (hiff.mpr hends) fuel _
      · obtain ⟨x, hx, hloop⟩ := hgo fun hends' => hends (hiff.mp hends')
        refine ⟨x, hx, fun fuel buf => ?_⟩
        rw [← Nat.add_assoc, hround, htake, if_neg (by decide)]
        exact hloop fuel _

/-- The array does not hold `"\r\n"`. -/
def NotBlank (buf : Option (List UInt8)) : Prop := ∀ x, buf = some x → strEq x crlf = false

theorem notBlank_none : NotBlank none := by
  intro x hx
  cases hx

/-- The loop gets behind any number of lines that do not end blank. -/
theorem readhdrsLoop_lines {lines : List (List UInt8)} {rest : List UInt8}
    {buf : Option (List UInt8)} (hbuf : NotBlank buf)
    (hlines : ∀ l ∈ lines, IsLine l ∧ ¬ EndsBlank l) (h : r.Sends (lines.flatten ++ rest)) :
    ∃ k r' buf', r'.Sends rest ∧ NotBlank buf' ∧
      ∀ fuel, readhdrsLoop (fuel + k) buf r = readhdrsLoop fuel buf' r' := by
  induction lines generalizing r buf with
  | nil => exact ⟨0, r, buf, h, hbuf, fun fuel => rfl⟩
  | cons line lines ih =>
    rw [List.flatten_cons, List.append_assoc] at h
    obtain ⟨hline, hends⟩ := hlines line List.mem_cons_self
    obtain ⟨k, r₁, hsends₁, -, hgo⟩ := readhdrsLoop_line hline h
    -- the line does not end blank, so the loop goes on behind it
    obtain ⟨x, hx, hloop⟩ := hgo hends
    have hx' : NotBlank (some x) := by
      intro y hy
      cases hy
      exact hx
    obtain ⟨k', r', buf', hsends, hbuf', hloop'⟩ :=
      ih hx' (fun l hl => hlines l (List.mem_cons_of_mem _ hl)) hsends₁
    refine ⟨k' + k, r', buf', hsends, hbuf', fun fuel => ?_⟩
    rw [← Nat.add_assoc, hloop, hloop']

/-- Without another line feed the loop never returns: at the end of the stream it compares the same
line again and again. -/
theorem readhdrsLoop_ne_returned {t : List UInt8} {buf : Option (List UInt8)} (hbuf : NotBlank buf)
    (ht : newline ∉ t) (h : r.Sends t) (fuel : ℕ) (r' : Rio) :
    readhdrsLoop fuel buf r ≠ .returned () r' := by
  induction fuel generalizing r t buf with
  | zero =>
    intro heq
    cases heq
  | succ fuel ih =>
    by_cases hnil : t = []
    · subst hnil
      -- at the end of the stream the array is compared as it is
      obtain ⟨r₁, hread, hsends₁⟩ := h.readlineb_end (show 1 < maxline by decide)
      rw [readhdrsLoop, hread]
      cases buf with
      | none =>
        intro heq
        cases heq
      | some x =>
        have hx := hbuf x rfl
        simp only [hx, Bool.false_eq_true, if_false]
        exact ih hbuf ht hsends₁
    · -- before that, with a piece that has no line feed
      obtain ⟨r₁, hsends₁, hround⟩ := readhdrsLoop_piece h hnil
      obtain ⟨h1, h2⟩ := newline_notMem_piece ht pieceLen
      have hpiece := strEq_crlf_of_notMem h1
      rw [hround, hpiece, if_neg (by decide)]
      refine ih ?_ h2 hsends₁
      intro y hy
      cases hy
      exact hpiece

/-- More rounds do not change a result. -/
theorem readhdrsLoop_add {fuel : ℕ} {buf : Option (List UInt8)} {r' : Rio}
    (h : readhdrsLoop fuel buf r = .returned () r') (k : ℕ) :
    readhdrsLoop (fuel + k) buf r = .returned () r' := by
  induction fuel generalizing r buf with
  | zero => cases h
  | succ fuel ih =>
    rw [Nat.add_right_comm]
    unfold readhdrsLoop at h ⊢
    cases hread : r.readlineb maxline with
    | ok p r₁ =>
      simp only [hread] at h ⊢
      by_cases hp : strEq p.2 crlf = true
      · rwa [if_pos hp] at h ⊢
      · rw [if_neg hp] at h ⊢
        exact ih h
    -- at the end of the stream the old line is compared again
    | eof r₁ =>
      simp only [hread] at h ⊢
      cases buf with
      | none => cases h
      | some x =>
        dsimp only at h ⊢
        by_cases hx : strEq x crlf = true
        · rwa [if_pos hx] at h ⊢
        · rw [if_neg hx] at h ⊢
          exact ih h
    | error _ => simp [hread] at h
    | blocked => simp [hread] at h

/-- Two runs that return stop at the same place. -/
theorem readhdrsLoop_unique {fuel fuel' : ℕ} {buf : Option (List UInt8)} {r₁ r₂ : Rio}
    (h₁ : readhdrsLoop fuel buf r = .returned () r₁)
    (h₂ : readhdrsLoop fuel' buf r = .returned () r₂) : r₁ = r₂ := by
  have h₁' := readhdrsLoop_add h₁ fuel'
  have h₂' := readhdrsLoop_add h₂ fuel
  rw [Nat.add_comm] at h₂'
  have heq := h₁'.symm.trans h₂'
  cases heq
  rfl

end

/-! ### Where it returns -/

/-- The lines in front are skipped by the specification too. -/
theorem afterHeaders_flatten {lines : List (List UInt8)} {s : List UInt8}
    (hlines : ∀ l ∈ lines, IsLine l ∧ ¬ EndsBlank l) :
    afterHeaders true (lines.flatten ++ s) = afterHeaders true s := by
  induction lines with
  | nil => rfl
  | cons line lines ih =>
    obtain ⟨hline, hends⟩ := hlines line List.mem_cons_self
    have hne : line ≠ crlf := by
      rintro rfl
      exact hends endsBlank_crlf
    rw [List.flatten_cons, List.append_assoc, afterHeaders_append hline hne]
    exact ih fun l hl => hlines l (List.mem_cons_of_mem _ hl)

/-- The first line that ends blank is where the loop returns. -/
theorem requestReadhdrs_returns {r : Rio} {lines : List (List UInt8)} {line rest : List UInt8}
    (hlines : ∀ l ∈ lines, IsLine l ∧ ¬ EndsBlank l) (hline : IsLine line) (hends : EndsBlank line)
    (h : r.Sends (lines.flatten ++ (line ++ rest))) :
    ∃ fuel r', requestReadhdrs fuel r = .returned () r' ∧ r'.unread = rest := by
  obtain ⟨k, r₁, buf, hsends₁, -, hloop⟩ :=
    readhdrsLoop_lines notBlank_none hlines h
  obtain ⟨k', r', hsends, hstop, -⟩ := readhdrsLoop_line hline hsends₁
  refine ⟨k' + k, r', ?_, hsends.unread⟩
  rw [requestReadhdrs, hloop, ← Nat.zero_add k']
  exact hstop hends 0 buf

/-- A run that returns where the specification says has met a line that ends blank, and the
specification stops there too. -/
theorem headersEnd_of_returned {r r' : Rio} {fuel : ℕ} (hsends : r.Sends r.unread)
    (hret : requestReadhdrs fuel r = .returned () r')
    (hrest : r'.unread = afterHeaders true r.unread) : HeadersEnd r.unread := by
  obtain ⟨lines, t, hs, hlines, ht⟩ := exists_lines r.unread
  rcases ht with ht | ⟨line, rest, rfl, hline, hends⟩
  · -- no line ends blank: the loop does not return
    exfalso
    obtain ⟨k, r₁, buf, hsends₁, hbuf, hloop⟩ :=
      readhdrsLoop_lines notBlank_none hlines (hs ▸ hsends)
    have hret' := readhdrsLoop_add hret k
    rw [hloop] at hret'
    exact readhdrsLoop_ne_returned hbuf ht hsends₁ fuel r' hret'
  · obtain ⟨fuel', r'', hret', hrest'⟩ :=
      requestReadhdrs_returns hlines hline hends (hs ▸ hsends)
    obtain rfl := readhdrsLoop_unique hret hret'
    refine ⟨lines, line, rest, hs, hlines, hline, ?_⟩
    by_cases hcrlf : line = crlf
    · exact Or.inl hcrlf
    · -- an overlong line: the specification goes on behind it
      refine Or.inr ⟨hends, ?_⟩
      by_contra hne
      have hspec : afterHeaders true r.unread = afterHeaders true rest := by
        rw [hs, afterHeaders_flatten hlines, afterHeaders_append hline hcrlf]
      have hlt := length_afterHeaders_lt true hne
      rw [← hspec, ← hrest, hrest'] at hlt
      exact lt_irrefl _ hlt

/-- **Header reading.** On a connection that delivers a finite stream, in whatever pieces, and is
then closed, `requestReadhdrs` returns behind the first line that is `"\r\n"`, or at the end if
there is none, exactly when `HeadersEnd` holds of the stream. -/
theorem readhdrs_returns_iff (r : Rio) (hlive : r.Live) (hclosed : r.closed = true) :
    (∃ fuel r', requestReadhdrs fuel r = .returned () r' ∧
      r'.unread = afterHeaders true r.unread) ↔ HeadersEnd r.unread := by
  have hsends : r.Sends r.unread := ⟨hlive, hclosed, rfl⟩
  constructor
  · rintro ⟨fuel, r', hret, hrest⟩
    exact headersEnd_of_returned hsends hret hrest
  · rintro ⟨lines, line, rest, hs, hlines, hline, hcase⟩
    -- the loop returns behind this line, and the specification has to stop there too
    have hends : EndsBlank line := by
      rcases hcase with rfl | ⟨hends, -⟩
      · exact endsBlank_crlf
      · exact hends
    obtain ⟨fuel, r', hret, hrest⟩ := requestReadhdrs_returns hlines hline hends (hs ▸ hsends)
    refine ⟨fuel, r', hret, ?_⟩
    rw [hrest, hs, afterHeaders_flatten hlines]
    by_cases hcrlf : line = crlf
    · rw [hcrlf, afterHeaders_crlf]
    · obtain ⟨-, rfl⟩ := hcase.resolve_left hcrlf
      rw [afterHeaders_append hline hcrlf]
      rfl

/-- A client that sends one header line and the blank line, and closes. -/
theorem readhdrs_returns_iff_sample :
    ∃ fuel r', requestReadhdrs fuel ⟨[], [.data (ascii "host: a\n\r\n")], true⟩ =
        .returned () r' ∧ r'.unread = [] := by
  have h := (readhdrs_returns_iff ⟨[], [.data (ascii "host: a\n\r\n")], true⟩
    (by
      intro a ha
      rw [List.mem_singleton.mp ha]
      exact List.cons_ne_nil _ _) rfl).mpr
    ⟨[ascii "host: a\n"], crlf, [], by decide, by
      intro l hl
      rw [List.mem_singleton.mp hl]
      exact ⟨⟨ascii "host: a", by decide, by decide⟩, fun hends => absurd hends.1 (by decide)⟩,
      isLine_crlf, Or.inl rfl⟩
  exact h

/-- A client that sends one header line and closes: the loop never returns. -/
theorem readhdrs_loops_at_end :
    ¬ ∃ fuel r', requestReadhdrs fuel ⟨[], [.data (ascii "host: a\n")], true⟩ =
      .returned () r' := by
  rintro ⟨fuel, r', hret⟩
  have hsends : Rio.Sends ⟨[], [.data (ascii "host: a\n")], true⟩
      ([ascii "host: a\n"].flatten ++ []) := by
    refine ⟨fun a ha => ?_, rfl, by decide⟩
    rw [List.mem_singleton.mp ha]
    exact List.cons_ne_nil _ _
  obtain ⟨k, r₁, buf, hsends₁, hbuf, hloop⟩ :=
    readhdrsLoop_lines notBlank_none (fun l hl => by
      rw [List.mem_singleton.mp hl]
      exact ⟨⟨ascii "host: a", by decide, by decide⟩, fun hends => absurd hends.1 (by decide)⟩)
      hsends
  have hret' := readhdrsLoop_add hret k
  rw [hloop] at hret'
  exact readhdrsLoop_ne_returned hbuf List.not_mem_nil hsends₁ fuel r' hret'

end Server
end OsHomework
