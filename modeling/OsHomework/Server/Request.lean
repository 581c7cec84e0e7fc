import Mathlib.Data.Bool.AllAny
import OsHomework.Server.Rio

/-!
# Reading a request

`clientSend` of `client.c` and the part of `requestHandle` of `request.c` that
reads from the connection: the request line, `sscanf`, the check of the method
and `requestReadhdrs`.

The two sides agree on the format. The client ends its two header lines with a
bare line feed and the blank line with `CR LF`; the server splits at line feeds,
takes the words of the first line and stops at a line that is exactly `CR LF`. So
it finds the method, the uri and the end of the headers, and it stops right after
the last byte that was sent, wherever the socket cuts the text
(`requestHandle_clientSend`).
-/

namespace OsHomework
namespace Server

/-! ### The client -/

/-- The text `clientSend` builds in `buf`. -/
def clientText (filename hostname : List UInt8) : List UInt8 :=
  -- the two `sprintf` calls, the second of which starts with the result of the first
  let buf := ascii "GET " ++ cstr filename ++ ascii " HTTP/1.1\n"
  buf ++ ascii "host: " ++ cstr hostname ++ ascii "\n\r\n"

/-- `clientSend`: `strlen(buf)` bytes are written to the socket. -/
def clientSend (filename hostname : List UInt8) : List UInt8 :=
  cstr (clientText filename hostname)

/-! ### The server -/

/-- How a function that may leave the process ends. -/
inductive Outcome (α : Type)
  | returned (value : α) (rio : Rio)
  /-- `unix_error` has ended the process. -/
  | exited
  /-- A `read` waits for bytes that are not there. -/
  | blocked
  /-- An array is read that nothing has been stored in. -/
  | undefined
  /-- The loop is still running after the given number of rounds. -/
  | running
  deriving DecidableEq, Repr

/-- `"\r\n"`. -/
def crlf : List UInt8 := ascii "\r\n"

/-- The `while` loop of `requestReadhdrs`, from a `Rio_readlineb` on, with the
string that stands in `buf` before it. -/
def readhdrsLoop : (fuel : ℕ) → (buf : Option (List UInt8)) → Rio → Outcome Unit
  | 0, _, _ => .running
  | fuel + 1, buf, r =>
    match r.readlineb maxline with
    | .ok (_, line) r =>
      if strEq line crlf then .returned () r else readhdrsLoop fuel (some line) r
    | .eof r =>
      -- `0`: the array keeps what the previous call has stored
      match buf with
      | none => .undefined
      | some line => if strEq line crlf then .returned () r else readhdrsLoop fuel (some line) r
    | .error _ => .exited
    | .blocked => .blocked

/-- `requestReadhdrs`. -/
def requestReadhdrs (fuel : ℕ) (r : Rio) : Outcome Unit := readhdrsLoop fuel none r

/-- `sscanf(buf, "%s %s %s", method, uri, version)`: the arrays it stores to. -/
def scanRequestLine (buf : List UInt8) :
    Option (List UInt8) × Option (List UInt8) × Option (List UInt8) :=
  match scanWord (cstr buf) with
  | none => (none, none, none)
  | some (method, s) =>
    match scanWord s with
    | none => (some method, none, none)
    | some (uri, s) =>
      match scanWord s with
      | none => (some method, some uri, none)
      | some (version, _) => (some method, some uri, some version)

/-- What `requestHandle` has when it stops reading. -/
structure RequestLine where
  method : List UInt8
  uri : List UInt8
  version : List UInt8
  deriving DecidableEq, Repr

/-- `requestHandle` up to the call of `requestParseURI`: the words of the request
line, with `true` when the headers were read and `false` when the answer is
`501 Not Implemented`. -/
def requestHandle (fuel : ℕ) (r : Rio) : Outcome (RequestLine × Bool) :=
  match r.readlineb maxline with
  | .ok (_, buf) r =>
    -- `printf` reads all three arrays
    match scanRequestLine buf with
    | (some method, some uri, some version) =>
      if strcaseEq method (ascii "GET") = false then .returned (⟨method, uri, version⟩, false) r
      else
        match requestReadhdrs fuel r with
        | .returned () r => .returned (⟨method, uri, version⟩, true) r
        | .exited => .exited
        | .blocked => .blocked
        | .undefined => .undefined
        | .running => .running
    | _ => .undefined
  | .eof _ => .undefined
  | .error _ => .exited
  | .blocked => .blocked

/-! ### The text of the client -/

section Agreement

variable {filename hostname : List UInt8}

/-- The request line, without its line feed. -/
def requestLine (filename : List UInt8) : List UInt8 :=
  ascii "GET " ++ cstr filename ++ ascii " HTTP/1.1"

/-- The header line, without its line feed. -/
def hostLine (hostname : List UInt8) : List UInt8 := ascii "host: " ++ cstr hostname

/-- The text is three lines. -/
theorem clientText_eq_lines (filename hostname : List UInt8) :
    clientText filename hostname =
      requestLine filename ++ newline :: (hostLine hostname ++ newline :: crlf) := by
  have hcut : ascii " HTTP/1.1\n" = ascii " HTTP/1.1" ++ [newline] := by decide
  have hend : ascii "\n\r\n" = newline :: crlf := by decide
  unfold clientText requestLine hostLine
  rw [hcut, hend]
  simp only [List.append_assoc, List.cons_append, List.nil_append]

/-- No `NUL` is in the text, so all of it is sent. -/
theorem clientSend_eq_clientText (filename hostname : List UInt8) :
    clientSend filename hostname = clientText filename hostname := by
  apply cstr_eq_self
  unfold clientText
  dsimp only
  simp only [List.mem_append, not_or]
  exact ⟨⟨⟨⟨⟨by decide, zero_notMem_cstr filename⟩, by decide⟩, by decide⟩,
    zero_notMem_cstr hostname⟩, by decide⟩

theorem newline_notMem_requestLine (hf : ∀ b ∈ filename, isspace b = false) :
    newline ∉ requestLine filename := by
  unfold requestLine
  simp only [List.mem_append, not_or]
  refine ⟨⟨by decide, fun h => ?_⟩, by decide⟩
  have hsp := hf _ (mem_of_mem_cstr h)
  exact absurd hsp (by decide)

theorem newline_notMem_hostLine (hh : newline ∉ hostname) : newline ∉ hostLine hostname := by
  unfold hostLine
  simp only [List.mem_append, not_or]
  exact ⟨by decide, fun h => hh (mem_of_mem_cstr h)⟩

/-- `sscanf` finds the three words of the request line. -/
theorem scanRequestLine_requestLine (hne : filename ≠ [])
    (hf : ∀ b ∈ filename, isspace b = false ∧ b ≠ 0) :
    scanRequestLine (requestLine filename ++ [newline]) =
      (some (ascii "GET"), some filename, some (ascii "HTTP/1.1")) := by
  have hfile : cstr filename = filename := cstr_eq_self fun h => (hf 0 h).2 rfl
  have hnul : (0 : UInt8) ∉ requestLine filename ++ [newline] := by
    unfold requestLine
    simp only [List.mem_append, not_or]
    exact ⟨⟨⟨by decide, zero_notMem_cstr filename⟩, by decide⟩, by decide⟩
  -- the text, cut into the three words and what is between them
  have htext : requestLine filename ++ [newline] =
      ascii "GET" ++ 32 :: (filename ++ 32 :: (ascii "HTTP/1.1" ++ newline :: [])) := by
    have hget : ascii "GET " = ascii "GET" ++ [32] := by decide
    have hversion : ascii " HTTP/1.1" = 32 :: ascii "HTTP/1.1" := by decide
    unfold requestLine
    rw [hget, hversion, hfile]
    simp only [List.append_assoc, List.cons_append, List.nil_append]
  have hspace : isspace 32 = true := by decide
  unfold scanRequestLine
  rw [cstr_eq_self hnul, htext]
  have hword : ∀ c ∈ ascii "GET", isspace c = false := List.all_iff_forall_prop.mp (by decide)
  have hword' : ∀ c ∈ ascii "HTTP/1.1", isspace c = false := List.all_iff_forall_prop.mp (by decide)
  rw [scanWord_append (by decide) hword hspace]
  dsimp only
  -- the space before a word is skipped
  rw [scanWord_cons hspace, scanWord_append hne (fun c hc => (hf c hc).1) hspace]
  dsimp only
  rw [scanWord_cons hspace, scanWord_append (by decide) hword' (by decide)]

/-- The host line is never taken for the blank line. -/
theorem strEq_hostLine (hostname : List UInt8) :
    strEq (hostLine hostname ++ [newline]) crlf = false := by
  have hhead : ∀ s, cstr (ascii "host: " ++ s) = 104 :: cstr (ascii "ost: " ++ s) := fun _ => rfl
  unfold strEq hostLine
  rw [List.append_assoc, hhead]
  rfl

/-- `requestReadhdrs` on the two lines that are left reads both and nothing else. -/
theorem requestReadhdrs_clientText {r : Rio} (hh : newline ∉ hostname)
    (hfit : (hostLine hostname).length + 1 < maxline) (hlive : r.Live)
    (h : r.unread = hostLine hostname ++ newline :: crlf) (fuel : ℕ) (hfuel : 2 ≤ fuel) :
    ∃ r', requestReadhdrs fuel r = .returned () r' ∧ r'.unread = [] := by
  obtain ⟨fuel, rfl⟩ := Nat.exists_eq_add_of_le' hfuel
  obtain ⟨n₁, r₁, hread₁, hlive₁, hrest₁⟩ :=
    Rio.readlineb_spec (newline_notMem_hostLine hh) hlive h hfit
  -- the blank line is a carriage return in front of the line feed
  have hblank : r₁.unread = [13] ++ newline :: [] := hrest₁
  obtain ⟨n₂, r₂, hread₂, -, hrest₂⟩ :=
    Rio.readlineb_spec (by decide) hlive₁ hblank (by decide : [(13 : UInt8)].length + 1 < maxline)
  refine ⟨r₂, ?_, hrest₂⟩
  have hcrlf : strEq ([13] ++ [newline]) crlf = true := by decide
  simp only [requestReadhdrs, readhdrsLoop, hread₁, strEq_hostLine, hread₂, hcrlf,
    Bool.false_eq_true, if_false, if_true]

/-- **Client and server agree on the request format**: wherever the socket cuts the bytes that
`clientSend` has written, `requestHandle` finds the method `GET` and the file name, and
`requestReadhdrs` returns with no byte left unread. -/
theorem requestHandle_clientSend (filename hostname : List UInt8) (answers : List ReadAnswer)
    (closed : Bool) (hne : filename ≠ []) (hf : ∀ b ∈ filename, isspace b = false ∧ b ≠ 0)
    (hh : newline ∉ hostname) (hfit : (clientText filename hostname).length < maxline)
    (hlive : ∀ a ∈ answers, Rio.Delivers a)
    (hsent : Rio.delivered answers = clientSend filename hostname)
    (fuel : ℕ) (hfuel : 2 ≤ fuel) :
    ∃ r, requestHandle fuel (Rio.readinitb answers closed) =
        .returned (⟨ascii "GET", filename, ascii "HTTP/1.1"⟩, true) r ∧
      r.unread = [] := by
  have hlines := clientText_eq_lines filename hostname
  have hlen := congrArg List.length hlines
  simp only [List.length_append, List.length_cons] at hlen
  have hunread : (Rio.readinitb answers closed).unread =
      requestLine filename ++ newline :: (hostLine hostname ++ newline :: crlf) := by
    rw [← hlines, ← clientSend_eq_clientText, ← hsent]
    rfl
  have hstart : (Rio.readinitb answers closed).Live := hlive
  obtain ⟨n, r₁, hread, hlive₁, hrest⟩ := Rio.readlineb_spec
    (newline_notMem_requestLine fun b hb => (hf b hb).1) hstart hunread
    (by omega : (requestLine filename).length + 1 < maxline)
  obtain ⟨r₂, hhdrs, hend⟩ := requestReadhdrs_clientText hh (by omega) hlive₁ hrest fuel hfuel
  refine ⟨r₂, ?_, hend⟩
  have hget : strcaseEq (ascii "GET") (ascii "GET") = true := by decide
  simp only [requestHandle, hread, scanRequestLine_requestLine hne hf, hget, hhdrs,
    Bool.true_eq_false, if_false]

end Agreement

/-- A request that arrives in three pieces, with an interrupted `read` in between. -/
def pieces : List ReadAnswer :=
  [.data (ascii "GET /ho"), .interrupted, .data (ascii "me.html HTTP/1.1\nhost: a"),
    .data (ascii "\n\r\n")]

theorem requestHandle_clientSend_pieces :
    ∃ r, requestHandle 2 (Rio.readinitb pieces false) =
        .returned (⟨ascii "GET", ascii "/home.html", ascii "HTTP/1.1"⟩, true) r ∧
      r.unread = [] :=
  requestHandle_clientSend (ascii "/home.html") (ascii "a") pieces false (by decide)
    (List.all_iff_forall_prop.mp (by decide)) (by decide) (by decide)
    (by
      intro a ha
      simp only [pieces, List.mem_cons, List.not_mem_nil, or_false] at ha
      rcases ha with rfl | rfl | rfl | rfl
      · exact List.cons_ne_nil _ _
      · trivial
      · exact List.cons_ne_nil _ _
      · exact List.cons_ne_nil _ _)
    (by decide) 2 le_rfl

end Server
end OsHomework
