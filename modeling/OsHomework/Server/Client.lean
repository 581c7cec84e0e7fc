import OsHomework.Server.Response

/-!
# The client

`clientPrint` of `client.c`, and the way from `clientSend` over the server back to what the client
prints.

The client takes the reply in pieces, a line each or as much of one as its array holds, and prints
the pieces it has read. What it prints is a function of these pieces (`page`), and so does not
depend on where the socket cuts the reply: `clientPrint_spec`. At the end of the stream the array
keeps its last line, which is then looked at once more; only a reply without any byte leaves the
array without a line.

A well formed reply is cut at its lines. So the client shows every header line, finds the length,
and prints the body (`prints_wellFormed`); what it prints of a page that it has asked for is the
content of the file (`fetch_static`).
-/

namespace OsHomework
namespace Server

/-- The next call is made only if this one has returned. -/
def Outcome.andThen {α β : Type} : Outcome α → (α → Rio → Outcome β) → Outcome β
  | .returned value r, f => f value r
  | .exited, _ => .exited
  | .blocked, _ => .blocked
  | .undefined, _ => .undefined
  | .running, _ => .running

namespace Reply

open Rio

/-- `n = Rio_readlineb(&rio, buf, MAXBUF)`: what `buf` holds then, and whether `n > 0`. -/
def readLine (buf : List UInt8) (r : Rio) : Outcome (List UInt8 × Bool) :=
  match r.readlineb maxbuf with
  | .ok (_, line) r => .returned (line, true) r
  -- the array keeps what the previous call has stored
  | .eof r => .returned (buf, false) r
  | .error _ => .exited
  | .blocked => .blocked

/-- `printf("Header: %s", buf)`. -/
def headerNote (buf : List UInt8) : List UInt8 := ascii "Header: " ++ cstr buf

/-- What is printed when a line gives the length. -/
def lengthNote (buf : List UInt8) : List UInt8 :=
  match scanContentLength (cstr buf) with
  | some length => ascii "Length = " ++ formatInt length ++ ascii "\n"
  | none => []

/-- The first `while` loop of `clientPrint`, with what has been printed. -/
def headerLoop : (fuel : ℕ) → (buf : List UInt8) → (more : Bool) → (out : List UInt8) → Rio →
    Outcome (List UInt8 × List UInt8)
  | 0, _, _, _, _ => .running
  | fuel + 1, buf, more, out, r =>
    if strEq buf crlf = false ∧ more = true then
      (readLine buf r).andThen fun (line, more) r =>
        headerLoop fuel line more (out ++ headerNote buf ++ lengthNote line) r
    else .returned (buf, out) r

/-- The second one, from the call of `Rio_readlineb` on. -/
def bodyLoop : (fuel : ℕ) → (buf : List UInt8) → (out : List UInt8) → Rio → Outcome (List UInt8)
  | 0, _, _, _ => .running
  | fuel + 1, buf, out, r =>
    (readLine buf r).andThen fun (line, more) r =>
      if more then bodyLoop fuel line (out ++ cstr line) r else .returned out r

/-- `clientPrint`: what is printed. -/
def clientPrint (fuel : ℕ) (r : Rio) : Outcome (List UInt8) :=
  match r.readlineb maxbuf with
  | .ok (_, line) r =>
    (headerLoop fuel line true [] r).andThen fun (buf, out) r => bodyLoop fuel buf out r
  -- nothing has been stored in the array that is compared
  | .eof _ => .undefined
  | .error _ => .exited
  | .blocked => .blocked

/-! ### A stream in pieces -/

theorem piece_append (m : ℕ) (s : List UInt8) : (piece m s).1 ++ (piece m s).2 = s := by
  induction s generalizing m with
  | nil => cases m <;> rfl
  | cons b s ih =>
    cases m with
    | zero => rfl
    | succ m =>
      rw [piece]
      split_ifs
      · rfl
      · exact congrArg (b :: ·) (ih m)

theorem piece_ne_nil {m : ℕ} (hm : 0 < m) {s : List UInt8} (hne : s ≠ []) : (piece m s).1 ≠ [] := by
  obtain ⟨m, rfl⟩ := Nat.exists_eq_add_of_lt hm
  obtain ⟨b, s, rfl⟩ := List.exists_cons_of_ne_nil hne
  rw [Nat.zero_add, piece]
  split_ifs <;> exact List.cons_ne_nil _ _

theorem length_piece_lt {m : ℕ} (hm : 0 < m) {s : List UInt8} (hne : s ≠ []) :
    (piece m s).2.length < s.length := by
  -- a piece has a byte at least, which is gone from the rest
  have hcut := congrArg List.length (piece_append m s)
  have hpos := List.length_pos_of_ne_nil (piece_ne_nil hm hne)
  rw [List.length_append] at hcut
  omega

/-- The pieces in which a client takes a stream. -/
def pieces (s : List UInt8) : List (List UInt8) :=
  if h : s = [] then []
  else (piece (maxbuf - 1) s).1 :: pieces (piece (maxbuf - 1) s).2
termination_by s.length
decreasing_by exact length_piece_lt (by decide) h

theorem pieces_nil : pieces [] = [] := by
  rw [pieces, dif_pos rfl]

theorem pieces_of_ne_nil {s : List UInt8} (hne : s ≠ []) :
    pieces s = (piece (maxbuf - 1) s).1 :: pieces (piece (maxbuf - 1) s).2 := by
  rw [pieces, dif_neg hne]

/-- The pieces of a stream are what it is made of. -/
theorem flatten_pieces (s : List UInt8) : (pieces s).flatten = s := by
  induction hn : s.length using Nat.strong_induction_on generalizing s with
  | _ n ih =>
    by_cases hne : s = []
    · rw [hne, pieces_nil]
      rfl
    · -- the rest is shorter, and made of its own pieces
      have hlt := length_piece_lt (show 0 < maxbuf - 1 by decide) hne
      rw [pieces_of_ne_nil hne, List.flatten_cons, ih _ (hn ▸ hlt) _ rfl, piece_append]

/-- A line that fits the array is a piece. -/
theorem pieces_line {l : List UInt8} (hline : IsLine l) (hfits : l.length < maxbuf)
    (s : List UInt8) : pieces (l ++ s) = l :: pieces s := by
  obtain ⟨body, hbody, rfl⟩ := hline
  rw [List.length_append, List.length_singleton] at hfits
  -- the piece ends with the first line feed
  have hcut : body ++ [newline] ++ s = body ++ newline :: s := by
    rw [List.append_assoc, List.singleton_append]
  have hne : body ++ [newline] ++ s ≠ [] := by
    rw [hcut]
    exact List.append_ne_nil_of_right_ne_nil _ (List.cons_ne_nil _ _)
  have hpiece : piece (maxbuf - 1) (body ++ [newline] ++ s) = (body ++ [newline], s) := by
    rw [hcut, piece_line hbody, if_pos (by omega)]
  rw [pieces_of_ne_nil hne, hpiece]

/-- Header lines are pieces. -/
theorem pieces_lines {ls : List (List UInt8)} (h : ∀ l ∈ ls, HeaderLine l) (s : List UInt8) :
    pieces (ls.flatten ++ s) = ls ++ pieces s := by
  induction ls with
  | nil => rfl
  | cons l ls ih =>
    rw [List.forall_mem_cons] at h
    rw [List.flatten_cons, List.append_assoc, pieces_line h.1.isLine h.1.fits, ih h.2]
    rfl

/-! ### What is printed -/

/-- What the client prints when `buf` has been read and the pieces follow. -/
def page (buf : List UInt8) : List (List UInt8) → List UInt8
  | [] => if strEq buf crlf then [] else headerNote buf ++ lengthNote buf
  | p :: ps =>
    if strEq buf crlf then ((p :: ps).map cstr).flatten
    else headerNote buf ++ lengthNote p ++ page p ps

section Printing

variable {r : Rio} {s : List UInt8} {fuel : ℕ}

theorem readLine_piece (h : r.Sends s) (hne : s ≠ []) (buf : List UInt8) :
    ∃ r', readLine buf r = .returned ((piece (maxbuf - 1) s).1, true) r' ∧
      r'.Sends (piece (maxbuf - 1) s).2 := by
  obtain ⟨n, r', hread, hsends⟩ := h.readlineb hne maxbuf
  refine ⟨r', ?_, hsends⟩
  rw [readLine, hread]

theorem readLine_end (h : r.Sends []) (buf : List UInt8) :
    ∃ r', readLine buf r = .returned (buf, false) r' ∧ r'.Sends [] := by
  obtain ⟨r', hread, hsends⟩ := h.readlineb_end (show 1 < maxbuf by decide)
  refine ⟨r', ?_, hsends⟩
  rw [readLine, hread]

/-- The second loop prints the pieces that are left. -/
theorem bodyLoop_spec (h : r.Sends s) (hfuel : s.length < fuel) (buf out : List UInt8) :
    ∃ r', bodyLoop fuel buf out r = .returned (out ++ ((pieces s).map cstr).flatten) r' := by
  induction fuel generalizing r s buf out with
  | zero => exact absurd hfuel (Nat.not_lt_zero _)
  | succ fuel ih =>
    by_cases hne : s = []
    · subst hne
      -- the stream has ended, and so does the loop
      obtain ⟨r', hread, -⟩ := readLine_end h buf
      refine ⟨r', ?_⟩
      rw [bodyLoop, hread, pieces_nil, List.map_nil, List.flatten_nil, List.append_nil]
      rfl
    · -- a piece is read and printed, and the stream gets shorter
      obtain ⟨r₁, hread, hsends⟩ := readLine_piece h hne buf
      have hlt := length_piece_lt (show 0 < maxbuf - 1 by decide) hne
      obtain ⟨r', hloop⟩ := ih hsends (show _ < fuel by omega) (piece (maxbuf - 1) s).1
        (out ++ cstr (piece (maxbuf - 1) s).1)
      refine ⟨r', ?_⟩
      rw [bodyLoop, hread]
      show bodyLoop fuel _ _ r₁ = _
      rw [hloop, pieces_of_ne_nil hne, List.map_cons, List.flatten_cons, List.append_assoc]

/-- The first loop leaves the second one what has not been printed yet. -/
theorem headerLoop_spec (h : r.Sends s) (hfuel : s.length + 1 < fuel) (buf out : List UInt8) :
    ∃ buf' out' r' s', headerLoop fuel buf true out r = .returned (buf', out') r' ∧ r'.Sends s' ∧
      s'.length ≤ s.length ∧
      out' ++ ((pieces s').map cstr).flatten = out ++ page buf (pieces s) := by
  induction fuel generalizing r s buf out with
  | zero => exact absurd hfuel (Nat.not_lt_zero _)
  | succ fuel ih =>
    cases hblank : strEq buf crlf with
    | true =>
      -- the blank line
      refine ⟨buf, out, r, s, ?_, h, le_rfl, ?_⟩
      · rw [headerLoop, hblank]
        rfl
      · cases hs : pieces s with
        | nil => rw [page, if_pos hblank, List.map_nil, List.flatten_nil]
        | cons p ps => rw [page, if_pos hblank]
    | false =>
      have hround : headerLoop (fuel + 1) buf true out r = (readLine buf r).andThen fun x r =>
          headerLoop fuel x.1 x.2 (out ++ headerNote buf ++ lengthNote x.1) r := by
        rw [headerLoop, if_pos ⟨hblank, rfl⟩]
      have hnot : ¬ strEq buf crlf = true := by
        rw [hblank]
        exact Bool.false_ne_true
      by_cases hne : s = []
      · -- the line in the array is looked at once more
        subst hne
        obtain ⟨r', hread, hsends⟩ := readLine_end h buf
        obtain ⟨fuel, rfl⟩ := Nat.exists_eq_add_of_lt (show 0 < fuel by omega)
        refine ⟨buf, out ++ headerNote buf ++ lengthNote buf, r', [], ?_, hsends, le_rfl, ?_⟩
        · rw [hround, hread]
          show headerLoop (0 + fuel + 1) buf false _ r' = _
          rw [headerLoop, if_neg (fun hmore => Bool.false_ne_true hmore.2)]
        · rw [pieces_nil, page, if_neg hnot, List.map_nil, List.flatten_nil, List.append_nil,
            List.append_assoc]
      · -- the next piece takes the place of the line in the array
        obtain ⟨r₁, hread, hsends⟩ := readLine_piece h hne buf
        have hlt := length_piece_lt (show 0 < maxbuf - 1 by decide) hne
        obtain ⟨buf', out', r', s', hloop, hsends', hle, hout⟩ := ih hsends (show _ < fuel by omega)
          (piece (maxbuf - 1) s).1 (out ++ headerNote buf ++ lengthNote (piece (maxbuf - 1) s).1)
        refine ⟨buf', out', r', s', ?_, hsends', hle.trans hlt.le, ?_⟩
        · rw [hround, hread]
          exact hloop
        · rw [hout, pieces_of_ne_nil hne, page, if_neg hnot]
          simp only [List.append_assoc]

/-- **What the client prints.** On every stream that ends, wherever the socket cuts it, the client
returns after it has printed a page that the bytes alone determine; but if there is not one byte, it
compares an array in which nothing has been stored. -/
theorem clientPrint_spec (h : r.Sends s) (hfuel : s.length < fuel) :
    (s = [] → clientPrint fuel r = .undefined) ∧
      ∀ line ps, pieces s = line :: ps →
        ∃ r', clientPrint fuel r = .returned (page line ps) r' := by
  constructor
  · rintro rfl
    obtain ⟨r', hread, -⟩ := h.readlineb_end (show 1 < maxbuf by decide)
    rw [clientPrint, hread]
  · intro line ps hpieces
    have hne : s ≠ [] := by
      rintro rfl
      rw [pieces_nil] at hpieces
      cases hpieces
    obtain ⟨n, r₁, hread, hsends⟩ := h.readlineb hne maxbuf
    have hlt := length_piece_lt (show 0 < maxbuf - 1 by decide) hne
    rw [pieces_of_ne_nil hne] at hpieces
    obtain ⟨rfl, rfl⟩ := List.cons.inj hpieces
    -- the two loops together print the page
    obtain ⟨buf, out, r₂, s', hheader, hsends', hle, hout⟩ := headerLoop_spec hsends
      (show _ + 1 < fuel by omega) (piece (maxbuf - 1) s).1 []
    obtain ⟨r', hbody⟩ := bodyLoop_spec hsends' (show s'.length < fuel by omega) buf out
    refine ⟨r', ?_⟩
    rw [clientPrint, hread]
    show (headerLoop fuel _ true [] r₁).andThen _ = _
    rw [hheader]
    show bodyLoop fuel buf out r₂ = _
    rw [hbody, hout, List.nil_append]

/-- **The client comes to an end.** On every stream that ends and has a byte, a reply or not, the
client returns, and what it prints does not depend on where the socket cuts the stream. -/
theorem clientPrint_ends (hne : s ≠ []) :
    ∃ out, ∀ r fuel, r.Sends s → s.length < fuel →
      ∃ r', clientPrint fuel r = .returned out r' := by
  refine ⟨_, fun r fuel h hfuel => (clientPrint_spec h hfuel).2 _ _ (pieces_of_ne_nil hne)⟩

/-- A reply that breaks off behind the line with the length. -/
theorem clientPrint_ends_sample :
    ∃ out, ∀ r fuel, r.Sends (ascii "HTTP/1.0 200 OK\r\nContent-Length: 7\r\n") → 99 < fuel →
      ∃ r', clientPrint fuel r = .returned out r' := by
  obtain ⟨out, hout⟩ := clientPrint_ends
    (show ascii "HTTP/1.0 200 OK\r\nContent-Length: 7\r\n" ≠ [] by decide)
  refine ⟨out, fun r fuel h hfuel => hout r fuel h (lt_of_le_of_lt ?_ hfuel)⟩
  decide

end Printing

/-! ### Replies of the server -/

/-- How a header line is shown. -/
def shown (l : List UInt8) : List UInt8 := ascii "Header: " ++ l

theorem lengthNote_of_none {l : List UInt8} (hl : HeaderLine l) (h : scanContentLength l = none) :
    lengthNote l = [] := by
  rw [lengthNote, cstr_eq_self hl.nul, h]

theorem strEq_headerLine {l : List UInt8} (hl : HeaderLine l) : ¬ strEq l crlf = true := fun heq =>
  hl.ne_crlf ((strEq_crlf_iff hl.isLine).mp heq)

theorem headerNote_headerLine {l : List UInt8} (hl : HeaderLine l) : headerNote l = shown l := by
  rw [headerNote, cstr_eq_self hl.nul, shown]

/-- Header lines without a length are shown one after the other. -/
theorem page_lines {l : List UInt8} {ls : List (List UInt8)} (h : ∀ l ∈ ls, HeaderLine l)
    (hnone : ∀ l ∈ ls, scanContentLength l = none) (hl : HeaderLine l) (p : List UInt8)
    (ps : List (List UInt8)) :
    page l (ls ++ p :: ps) = (l :: ls).flatMap shown ++ lengthNote p ++ page p ps := by
  induction ls generalizing l with
  | nil =>
    rw [List.nil_append, page, if_neg (strEq_headerLine hl), headerNote_headerLine hl]
    simp only [List.flatMap_cons, List.flatMap_nil, List.append_nil]
  | cons l' ls ih =>
    rw [List.forall_mem_cons] at h hnone
    rw [List.cons_append, page, if_neg (strEq_headerLine hl), headerNote_headerLine hl,
      lengthNote_of_none h.1 hnone.1, ih h.2 hnone.2 h.1]
    simp only [List.flatMap_cons, List.append_nil, List.append_assoc]

/-- Behind the blank line the pieces are printed as they are. -/
theorem page_crlf (ps : List (List UInt8)) : page crlf ps = (ps.map cstr).flatten := by
  have hblank : strEq crlf crlf = true := (strEq_crlf_iff isLine_crlf).mpr rfl
  cases ps with
  | nil => rw [page, if_pos hblank, List.map_nil, List.flatten_nil]
  | cons p ps => rw [page, if_pos hblank]

theorem lengthNote_crlf : lengthNote crlf = [] := rfl

/-- A text without a `NUL` is printed as it is. -/
theorem flatten_cstr_pieces {s : List UInt8} (h : 0 ∉ s) : ((pieces s).map cstr).flatten = s := by
  -- no piece has a `NUL` either
  have hpiece : ∀ p ∈ pieces s, cstr p = id p := fun p hp => cstr_eq_self fun h0 =>
    h (flatten_pieces s ▸ List.mem_flatten_of_mem hp h0)
  rw [List.map_congr_left hpiece, List.map_id, flatten_pieces]

section Reply

variable {status body : List UInt8} {lines chunks : List (List UInt8)}

/-- However many calls of `write` it takes to send the chunks, and wherever the socket cuts them,
the client prints the text. -/
def Prints (chunks : List (List UInt8)) (out : List UInt8) : Prop :=
  ∀ ws answers fuel, .failed ∉ ws → chunks.flatten.length ≤ takers ws →
    (∀ a ∈ answers, Delivers a) → delivered answers = (writeAll ws chunks).sent →
    chunks.flatten.length < fuel →
    ∃ r, clientPrint fuel (readinitb answers true) = .returned out r

theorem prints_page {ps : List (List UInt8)} (h : pieces chunks.flatten = status :: ps) :
    Prints chunks (page status ps) := by
  intro ws answers fuel hfail hroom hlive hsent hfuel
  -- all bytes of the reply are sent
  have hall : (writeAll ws chunks).sent = chunks.flatten :=
    (writeAll_spec ws chunks).2.mp (writeAll_ok hfail hroom)
  have hsends : (readinitb answers true).Sends chunks.flatten := ⟨hlive, rfl, hsent.trans hall⟩
  exact (clientPrint_spec hsends hfuel).2 status ps h

end Reply

/-! ### There and back -/

/-- What a client may ask for: a word, and a host name on one line, that fit its array. -/
structure Asks (uri hostname : List UInt8) : Prop where
  ne_nil : uri ≠ []
  word : ∀ b ∈ uri, isspace b = false ∧ b ≠ 0
  host : newline ∉ hostname
  fits : (clientText uri hostname).length < maxline

/-- There is room left behind the uri. -/
theorem Asks.length_uri {uri hostname : List UInt8} (h : Asks uri hostname) :
    uri.length + 22 ≤ maxline := by
  have huri : cstr uri = uri := cstr_eq_self fun h0 => (h.word 0 h0).2 rfl
  have hlen := congrArg List.length (clientText_eq_lines uri hostname)
  have hfits := h.fits
  have hget : (ascii "GET ").length = 4 := length_ascii _
  have hversion : (ascii " HTTP/1.1").length = 9 := length_ascii _
  have hhost : (ascii "host: ").length = 6 := length_ascii _
  simp only [List.length_append, List.length_cons, requestLine, hostLine, huri, hget, hversion,
    hhost] at hlen
  omega

/-- The name of the file that a uri stands for. -/
def staticName (uri : List UInt8) : List UInt8 :=
  if uri.getLast? = some slash then publicDir ++ uri ++ homeHtml else publicDir ++ uri

/-- The uri stands for a file that the server can send. -/
structure Serves (env : Env) (uri : List UInt8) (file : File) : Prop where
  dots : ¬ parentDir <:+: uri
  notCgi : ¬ cgi <:+: uri
  found : env.files (staticName uri) = some file
  isReg : file.mode.isReg = true
  isReadable : file.mode.isReadable = true
  opens : file.opens = true
  pos : 0 < file.content.length
  lt : file.content.length < 2 ^ 31

section Fetch

variable {env : Env} {uri hostname : List UInt8} {file : File} {job : Job} {cnt : Counters}
  {fuel : ℕ} {r : Rio}

/-- The server finds the uri in what the client has sent. -/
theorem requestHandle_clientText (h : Asks uri hostname) (hlive : r.Live)
    (hsent : r.unread = clientSend uri hostname) (hfuel : 2 ≤ fuel) :
    ∃ r', Server.requestHandle fuel r =
      .returned (⟨ascii "GET", uri, ascii "HTTP/1.1"⟩, true) r' := by
  have hlen := congrArg List.length (clientText_eq_lines uri hostname)
  have hfits := h.fits
  simp only [List.length_append, List.length_cons] at hlen
  rw [clientSend_eq_clientText, clientText_eq_lines] at hsent
  -- the first line is the request line, and the rest the headers
  have hline := newline_notMem_requestLine fun b hb => (h.word b hb).1
  obtain ⟨n, r₁, hread, hlive₁, hrest⟩ := Rio.readlineb_spec hline hlive hsent
    (show (requestLine uri).length + 1 < maxline by omega)
  obtain ⟨r₂, hhdrs, -⟩ := requestReadhdrs_clientText h.host
    (show (hostLine hostname).length + 1 < maxline by omega) hlive₁ hrest fuel hfuel
  refine ⟨r₂, ?_⟩
  have hget : ¬ strcaseEq (ascii "GET") (ascii "GET") = false := by decide
  rw [Server.requestHandle, hread]
  dsimp only
  rw [scanRequestLine_requestLine h.ne_nil h.word]
  dsimp only
  rw [if_neg hget, hhdrs]

theorem any_stored {p : ParsedURI} (h : ∀ text ∈ p.stored, text.length < maxline) :
    p.stored.any (fun text => maxline ≤ text.length) = false := by
  refine List.any_eq_false.mpr fun text ht => ?_
  rw [decide_eq_true_iff, not_le]
  exact h text ht

/-- What `output.c` puts in `content`, with the time it has measured as it is formatted. -/
def outputContent (seconds : List UInt8) : List UInt8 :=
  ascii "<p>Welcome to the CGI program</p>\r\n" ++
    ascii "<p>My only purpose is to waste time on the server!</p>\r\n" ++
    (ascii "<p>I spun for " ++ seconds ++ ascii " seconds</p>\r\n")

/-- What `output.c` writes. -/
def output (seconds : List UInt8) : List UInt8 :=
  line "Content-length: " (formatNat (outputContent seconds).length) ++
    (line "Content-type: text/html" [] ++ crlf) ++ outputContent seconds

/-- The name of the program that a uri stands for, and its arguments. -/
def dynamicName (uri : List UInt8) : List UInt8 × List UInt8 :=
  match index uri questionMark with
  | some (path, args) => (publicDir ++ path, args)
  | none => (publicDir ++ uri, [])

/-- The uri stands for the test program, which prints the text as its time. -/
structure Runs (env : Env) (uri seconds : List UInt8) : Prop where
  dots : ¬ parentDir <:+: uri
  isCgi : cgi <:+: uri
  found : ∃ file, env.files (dynamicName uri).1 = some file ∧ file.mode.isReg = true ∧
    file.mode.isExecutable = true
  writes : env.cgi (dynamicName uri).1 (dynamicName uri).2 = output seconds
  plain : plain seconds = true
  length : seconds.length < 100

/-- The header lines of a page of the test program. -/
def outputLines (seconds : List UInt8) (job : Job) (cnt : Counters) : List (List UInt8) :=
  line "Server: OS-HW3 Web Server" [] :: (statLines job cnt ++
    [line "Content-length: " (formatNat (outputContent seconds).length),
      line "Content-type: text/html" []])

variable {seconds : List UInt8}

theorem length_outputContent (seconds : List UInt8) :
    (outputContent seconds).length = seconds.length + 119 := by
  have h₁ : (ascii "<p>Welcome to the CGI program</p>\r\n").length = 35 := length_ascii _
  have h₂ : (ascii "<p>My only purpose is to waste time on the server!</p>\r\n").length = 56 :=
    length_ascii _
  have h₃ : (ascii "<p>I spun for ").length = 14 := length_ascii _
  have h₄ : (ascii " seconds</p>\r\n").length = 14 := length_ascii _
  rw [outputContent]
  simp only [List.length_append, h₁, h₂, h₃, h₄]
  omega

theorem zero_notMem_outputContent (hplain : plain seconds = true) :
    0 ∉ outputContent seconds := by
  rw [outputContent]
  simp only [List.mem_append, not_or]
  exact ⟨⟨by decide, by decide⟩, ⟨by decide, (plain_iff.mp hplain).1⟩, by decide⟩

/-- The lines of the page can be read one by one. -/
theorem headerLine_outputLines (hlen : seconds.length < 100) (hindex : job.index < 2 ^ 31) :
    ∀ l ∈ outputLines seconds job cnt, HeaderLine l := by
  -- the page has a three-digit length
  have hshort : (formatNat (outputContent seconds).length).length < 100 := by
    rw [length_outputContent]
    exact (length_formatNat_le (show 1 ≤ 3 by decide) (by omega)).trans_lt (by decide)
  rw [outputLines, List.forall_mem_cons, List.forall_mem_append]
  refine ⟨headerLine_line (by decide) rfl (by decide), headerLine_statLines hindex, ?_⟩
  simp only [List.forall_mem_cons]
  exact ⟨headerLine_line (by decide) (plain_formatNat _) hshort,
    headerLine_line (by decide) rfl (by decide), fun l hl => absurd hl List.not_mem_nil⟩

/-- `Content-length` is not what the client looks for. -/
theorem scan_outputLines : ∀ l ∈ outputLines seconds job cnt, scanContentLength l = none :=
  List.filterMap_eq_nil_iff.mp rfl

/-- The uri of a program is parsed as one, and its parts fit the arrays. -/
theorem requestParseURI_dynamic (h : Asks uri hostname) (hdots : ¬ parentDir <:+: uri)
    (hcgi : cgi <:+: uri) :
    ∃ p, requestParseURI uri = some p ∧ p.isStatic = false ∧ p.filename = (dynamicName uri).1 ∧
      p.cgiargs.getD [] = (dynamicName uri).2 ∧
      ∀ text ∈ p.stored, text.length < maxline := by
  have huri : cstr uri = uri := cstr_eq_self fun h0 => (h.word 0 h0).2 rfl
  have hshort := h.length_uri
  have hpublic := length_publicDir
  have hparse := requestParseURI_of_dynamic (huri.symm ▸ hdots) (huri.symm ▸ hcgi)
  rw [huri] at hparse
  refine ⟨_, hparse, ?_⟩
  rw [dynamicName]
  cases hindex : index uri questionMark with
  | none =>
    refine ⟨rfl, rfl, rfl, ?_⟩
    simp only [List.forall_mem_cons, List.length_append, List.length_nil, hpublic]
    exact ⟨by omega, by omega, fun text ht => absurd ht List.not_mem_nil⟩
  | some parts =>
    obtain ⟨path, args⟩ := parts
    have hlen := congrArg List.length (index_eq_some hindex).1
    rw [huri, List.length_append, List.length_cons] at hlen
    refine ⟨rfl, rfl, rfl, ?_⟩
    simp only [List.forall_mem_cons, List.length_append, hpublic]
    exact ⟨by omega, by omega, fun text ht => absurd ht List.not_mem_nil⟩

/-- The server runs the program. -/
theorem requestHandle_dynamic (h : Asks uri hostname) (hruns : Runs env uri seconds)
    (hlive : r.Live) (hsent : r.unread = clientSend uri hostname) (hfuel : 2 ≤ fuel) :
    ∃ r', requestHandle env fuel r job cnt =
      .returned (requestServeDynamic env (dynamicName uri).1 (dynamicName uri).2 job
        ((cnt.countTotal job.index).countDynamic job.index),
        (cnt.countTotal job.index).countDynamic job.index) r' := by
  obtain ⟨r', hread⟩ := requestHandle_clientText h hlive hsent hfuel
  obtain ⟨p, hparse, hstatic, hname, hargs, hstored⟩ :=
    requestParseURI_dynamic h hruns.dots hruns.isCgi
  obtain ⟨file, hfound, hreg, hexec⟩ := hruns.found
  have hmode : ¬ (file.mode.isReg = false ∨ file.mode.isExecutable = false) := by
    rw [hreg, hexec]
    decide
  refine ⟨r', ?_⟩
  rw [requestHandle, answerRequest, hread]
  dsimp only
  rw [hparse]
  dsimp only
  rw [any_stored hstored, if_neg Bool.false_ne_true, serve, hname, hfound]
  dsimp only
  rw [hstatic, if_neg Bool.false_ne_true, if_neg hmode, hargs]

/-- **A program is run.** The client asks for the test program. However the socket cuts the request
and the answer, and however many calls of `write` there are, the client prints the header lines of
the server, those of the program and the page, but no length, since the program writes the name of
the line in another way than the server. -/
theorem fetch_dynamic (hask : Asks uri hostname) (hruns : Runs env uri seconds)
    (hindex : job.index < 2 ^ 31) {request : List ReadAnswer} {closed : Bool}
    (hrequest : ∀ a ∈ request, Delivers a) (hsent : delivered request = clientSend uri hostname)
    (hfuel : 2 ≤ fuel) :
    ∃ chunks cnt' r, cnt' = (cnt.countTotal job.index).countDynamic job.index ∧
      requestHandle env fuel (readinitb request closed) job cnt = .returned (chunks, cnt') r ∧
      Prints chunks
        ((line "HTTP/1.0 200 OK" [] :: outputLines seconds job cnt').flatMap shown ++
          outputContent seconds) := by
  have hstart : (readinitb request closed).Live := hrequest
  obtain ⟨r, hhandle⟩ := requestHandle_dynamic hask hruns hstart hsent hfuel
  refine ⟨_, _, r, rfl, hhandle, ?_⟩
  -- which counters the lines show does not matter for how they are read
  generalize (cnt.countTotal job.index).countDynamic job.index = cnt'
  have hstatus : HeaderLine (line "HTTP/1.0 200 OK" []) :=
    headerLine_line (by decide) rfl (by decide)
  have hlines : ∀ l ∈ outputLines seconds job cnt', HeaderLine l :=
    headerLine_outputLines hruns.length hindex
  have hreply : (requestServeDynamic env (dynamicName uri).1 (dynamicName uri).2 job cnt').flatten
      = (line "HTTP/1.0 200 OK" [] :: outputLines seconds job cnt').flatten ++
        (crlf ++ outputContent seconds) := by
    rw [requestServeDynamic, hruns.writes, output, outputLines]
    simp only [List.flatten_cons, List.flatten_nil, List.flatten_append, List.append_nil,
      List.append_assoc]
  -- the blank line comes from the program
  have hpieces : pieces (requestServeDynamic env (dynamicName uri).1 (dynamicName uri).2 job
      cnt').flatten = line "HTTP/1.0 200 OK" [] ::
        (outputLines seconds job cnt' ++ crlf :: pieces (outputContent seconds)) := by
    rw [hreply, pieces_lines (List.forall_mem_cons.mpr ⟨hstatus, hlines⟩),
      pieces_line isLine_crlf (by decide)]
    rfl
  have hpage := prints_page hpieces
  rwa [page_lines hlines scan_outputLines hstatus, page_crlf, lengthNote_crlf,
    flatten_cstr_pieces (zero_notMem_outputContent hruns.plain), List.append_nil] at hpage

end Fetch

/-! ### One page and one program -/

/-- A server with a page of four bytes, and with the test program, which takes a tenth of a second
whatever it is asked for. -/
def sampleEnv : Env where
  files name :=
    if name = ascii "./public//a.html" then some ⟨⟨true, true, false⟩, true, ascii "text"⟩
    else if name = ascii "./public//output.cgi" then some ⟨⟨true, true, true⟩, true, [1]⟩
    else none
  cgi _ _ := output (ascii "0.10")

theorem asks_sample {uri : List UInt8} (hne : uri ≠ [])
    (hword : uri.all (fun b => !isspace b && b ≠ 0) = true)
    (hfits : (clientText uri (ascii "a")).length < maxline) : Asks uri (ascii "a") := by
  refine ⟨hne, fun b hb => ?_, by decide, hfits⟩
  simpa using List.all_eq_true.mp hword b hb

/-- A request that comes in one piece. -/
theorem delivers_clientSend (uri hostname : List UInt8) :
    ∀ a ∈ [ReadAnswer.data (clientSend uri hostname)], Delivers a := by
  rw [List.forall_mem_singleton, clientSend_eq_clientText]
  exact List.cons_ne_nil _ _

theorem fetch_dynamic_sample :
    ∃ chunks cnt' r, cnt' = (Counters.zero.countTotal 0).countDynamic 0 ∧
      requestHandle sampleEnv 2
        (readinitb [.data (clientSend (ascii "/output.cgi?0.1") (ascii "a"))] false)
        ⟨⟨0, 0⟩, ⟨0, 0⟩, 0⟩ .zero = .returned (chunks, cnt') r ∧
      Prints chunks ((line "HTTP/1.0 200 OK" [] ::
        outputLines (ascii "0.10") ⟨⟨0, 0⟩, ⟨0, 0⟩, 0⟩ cnt').flatMap shown ++
          outputContent (ascii "0.10")) := by
  have hruns : Runs sampleEnv (ascii "/output.cgi?0.1") (ascii "0.10") :=
    ⟨by decide, by decide, ⟨⟨⟨true, true, true⟩, true, [1]⟩, rfl, rfl, rfl⟩, rfl, by decide,
      by decide⟩
  have hindex : (⟨⟨0, 0⟩, ⟨0, 0⟩, 0⟩ : Job).index < 2 ^ 31 := by decide
  exact fetch_dynamic (asks_sample (by decide) (by decide) (by decide)) hruns hindex
    (delivers_clientSend _ _) (List.append_nil _) le_rfl

end Reply
end Server
end OsHomework
