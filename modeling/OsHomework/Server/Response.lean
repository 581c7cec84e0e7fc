import OsHomework.Lib.Decimal
import OsHomework.Server.Buffers
import OsHomework.Server.Headers
import OsHomework.Server.ReqQ
import OsHomework.Server.Writen

/-!
# Answering a request

The other half of `request.c`: `requestError`, `requestServeStatic`, `requestServeDynamic`,
`requestGetFiletype`, and `requestHandle` as a whole, with the counters of the worker. A reply is
the list of what is passed to `Rio_writen`, call by call; `sprintf(buf, "%s…", buf)` is modelled as
what it appends to the array.

`requestHandle` is a function of the files and of what a program writes. Every reply it makes by
itself is well formed (`WellFormed`): lines that a client can read one by one, a blank line, and a
body of just the length that one of the lines announces (`requestHandle_wellFormed`).
-/

namespace OsHomework
namespace Server
namespace Reply

/-- `static_counter`, `dynamic_counter` and `total_counter`, one `int` for each worker. -/
structure Counters where
  static : ℕ → Int32
  dynamic : ℕ → Int32
  total : ℕ → Int32

/-- The counters as `main` sets them up. -/
def Counters.zero : Counters := ⟨fun _ => 0, fun _ => 0, fun _ => 0⟩

/-- `total_counter[index]++`. -/
def Counters.countTotal (cnt : Counters) (index : ℕ) : Counters :=
  { cnt with total := Function.update cnt.total index (cnt.total index + 1) }

def Counters.countStatic (cnt : Counters) (index : ℕ) : Counters :=
  { cnt with static := Function.update cnt.static index (cnt.static index + 1) }

def Counters.countDynamic (cnt : Counters) (index : ℕ) : Counters :=
  { cnt with dynamic := Function.update cnt.dynamic index (cnt.dynamic index + 1) }

/-- A file, as `stat`, `open` and `mmap` show it. -/
structure File where
  mode : FileMode
  /-- `open(filename, O_RDONLY, 0)` succeeds. -/
  opens : Bool
  content : List UInt8

/-- What the handler finds around it. -/
structure Env where
  /-- The answer of `stat`; a path that does not exist has none. -/
  files : List UInt8 → Option File
  /-- What the program writes to the socket, for its file name and `QUERY_STRING`. -/
  cgi : List UInt8 → List UInt8 → List UInt8

/-- The arguments of the handler other than the descriptor and the counters. -/
structure Job where
  pickUp : Timeval
  dif : Timeval
  index : ℕ

/-- `"%lu.%06lu"` of a `timeval`, whose parts are converted to `unsigned long`. -/
def formatTime (t : Timeval) : List UInt8 :=
  formatNat (t.tvSec % 2 ^ 64).toNat ++ ascii "." ++ formatPadded 6 (t.tvUsec % 2 ^ 64).toNat

/-- A header line: the text that is formatted, behind its name and in front of `"\r\n"`. -/
def line (tag : String) (value : List UInt8) : List UInt8 := ascii tag ++ value ++ crlf

/-- The six lines of statistics. -/
def statLines (job : Job) (cnt : Counters) : List (List UInt8) :=
  [line "Stat-Req-Arrival:: " (formatTime job.pickUp),
    line "Stat-Req-Dispatch:: " (formatTime job.dif),
    line "Stat-Thread-Id:: " (formatInt job.index),
    line "Stat-Thread-Count:: " (formatInt (cnt.total job.index).toInt),
    line "Stat-Thread-Static:: " (formatInt (cnt.static job.index).toInt),
    line "Stat-Thread-Dynamic:: " (formatInt (cnt.dynamic job.index).toInt)]

/-- The last content of `body` in `requestError`. -/
def errorBody (cause : List UInt8) (errnum shortmsg longmsg : String) : List UInt8 :=
  (errorBodies (cstr cause) (ascii errnum) (ascii shortmsg) (ascii longmsg)).getLastD []

/-- `requestError`, `none` when its text does not fit the array. -/
def requestError (cause : List UInt8) (errnum shortmsg longmsg : String) (job : Job)
    (cnt : Counters) : Option (List (List UInt8)) :=
  let body := errorBody cause errnum shortmsg longmsg
  if body.length < maxbuf then some
    [line "HTTP/1.0 " (ascii errnum ++ ascii " " ++ ascii shortmsg),
      line "Content-Type: text/html" [],
      line "Content-Length: " (formatNat (cstr body).length),
      (statLines job cnt).flatten ++ crlf,
      cstr body]
  else none

/-- `requestGetFiletype`. -/
def requestGetFiletype (filename : List UInt8) : List UInt8 :=
  if strstr filename (ascii ".html") then ascii "text/html"
  else if strstr filename (ascii ".gif") then ascii "image/gif"
  else if strstr filename (ascii ".jpg") then ascii "image/jpeg"
  else ascii "text/plain"

/-- `requestServeStatic`, `none` when `Open` or `Mmap` has ended the process. The size is passed as
an `int`, and `mmap` refuses the length zero and what a negative one becomes as a `size_t`. -/
def requestServeStatic (filename : List UInt8) (file : File) (job : Job) (cnt : Counters) :
    Option (List (List UInt8)) :=
  let filesize : Int32 := Int32.ofInt file.content.length
  if file.opens = false ∨ filesize.toInt ≤ 0 then none
  else some
    [(line "HTTP/1.0 200 OK" [] ++ line "Server: OS-HW3 Web Server" [] ++
        line "Content-Length: " (formatInt filesize.toInt) ++
        line "Content-Type: " (requestGetFiletype filename)),
      (statLines job cnt).flatten ++ crlf,
      file.content.take filesize.toInt.toNat]

/-- `requestServeDynamic`. The program finishes the header, so that there is no blank line. -/
def requestServeDynamic (env : Env) (filename cgiargs : List UInt8) (job : Job) (cnt : Counters) :
    List (List UInt8) :=
  [line "HTTP/1.0 200 OK" [] ++ line "Server: OS-HW3 Web Server" [],
    (statLines job cnt).flatten,
    env.cgi filename cgiargs]

/-- The handler has called `requestError` and returns. -/
def refuse (r : Rio) (cnt : Counters) :
    Option (List (List UInt8)) → Outcome (List (List UInt8) × Counters)
  | some chunks => .returned (chunks, cnt) r
  | none => .undefined

/-- The part of `requestHandle` from `stat` on: the calls of `Rio_writen`, and the counters. -/
def serve (env : Env) (p : ParsedURI) (r : Rio) (job : Job) (cnt : Counters) :
    Outcome (List (List UInt8) × Counters) :=
  match env.files p.filename with
  | none =>
    refuse r cnt (requestError p.filename "404" "Not found" "OS-HW3 Server could not find this file"
      job cnt)
  | some file =>
    if p.isStatic then
      if file.mode.isReg = false ∨ file.mode.isReadable = false then
        refuse r cnt (requestError p.filename "403" "Forbidden"
          "OS-HW3 Server could not read this file" job cnt)
      else
        match requestServeStatic p.filename file job (cnt.countStatic job.index) with
        | some chunks => .returned (chunks, cnt.countStatic job.index) r
        | none => .exited
    else if file.mode.isReg = false ∨ file.mode.isExecutable = false then
      refuse r cnt (requestError p.filename "403" "Forbidden"
        "OS-HW3 Server could not run this CGI program" job cnt)
    else .returned (requestServeDynamic env p.filename (p.cgiargs.getD []) job
      (cnt.countDynamic job.index), cnt.countDynamic job.index) r

/-- The part of `requestHandle` behind `total_counter[index]++`. -/
def answerRequest (env : Env) (fuel : ℕ) (r : Rio) (job : Job) (cnt : Counters) :
    Outcome (List (List UInt8) × Counters) :=
  match Server.requestHandle fuel r with
  | .returned (req, true) r =>
    match requestParseURI req.uri with
    | none => .undefined
    | some p =>
      -- a name that does not fit its array
      if p.stored.any (fun text => maxline ≤ text.length) then .undefined
      else serve env p r job cnt
  | .returned (req, false) r =>
    refuse r cnt (requestError req.method "501" "Not Implemented"
      "OS-HW3 Server does not implement this method" job cnt)
  | .exited => .exited
  | .blocked => .blocked
  | .undefined => .undefined
  | .running => .running

/-- `requestHandle`. -/
def requestHandle (env : Env) (fuel : ℕ) (r : Rio) (job : Job) (cnt : Counters) :
    Outcome (List (List UInt8) × Counters) :=
  answerRequest env fuel r job (cnt.countTotal job.index)

/-! ### What a client relies on -/

/-- `sscanf(s, "Content-Length: %d ", &length)`: the number, if one is read. The blank in the format
stands for any white space, which `%d` skips as well. -/
def scanContentLength (s : List UInt8) : Option ℤ :=
  if (ascii "Content-Length:").isPrefixOf s then scanInt (s.drop 15) else none

/-- A line that is read as one, printed as a whole, and not taken for the blank line. -/
structure HeaderLine (l : List UInt8) : Prop where
  isLine : IsLine l
  nul : 0 ∉ l
  fits : l.length < maxbuf
  ne_crlf : l ≠ crlf

/-- A reply: a status line, header lines, a blank line and a body, of which one header line gives
the length. -/
structure WellFormed (reply status : List UInt8) (lines : List (List UInt8)) (body : List UInt8) :
    Prop where
  parts : reply = (status :: lines).flatten ++ crlf ++ body
  header : ∀ l ∈ status :: lines, HeaderLine l
  length : lines.filterMap scanContentLength = [(body.length : ℤ)]

/-- The beginning of a reply that a program finishes: a status line and header lines, none of which
gives a length, and what the program writes. -/
structure LeftOpen (reply status : List UInt8) (lines : List (List UInt8)) (rest : List UInt8) :
    Prop where
  parts : reply = (status :: lines).flatten ++ rest
  header : ∀ l ∈ status :: lines, HeaderLine l
  length : lines.filterMap scanContentLength = []

/-- The request that `requestHandle` reads asks for a program that may be executed, and `p` is what
`requestParseURI` makes of its uri. -/
structure RunsProgram (env : Env) (fuel : ℕ) (r : Rio) (p : ParsedURI) : Prop where
  asked : ∃ req r', Server.requestHandle fuel r = .returned (req, true) r' ∧
    requestParseURI req.uri = some p
  isDynamic : p.isStatic = false
  executable : ∃ file, env.files p.filename = some file ∧ file.mode.isReg = true ∧
    file.mode.isExecutable = true

/-! ### The lines of a reply -/

/-- No `NUL` and no line feed. -/
def plain (s : List UInt8) : Bool := s.all fun b => b ≠ 0 && b ≠ newline

section Lines

variable {s s' : List UInt8} {tag : String} {value : List UInt8}

theorem plain_append : plain (s ++ s') = (plain s && plain s') := List.all_append

theorem plain_iff : plain s = true ↔ 0 ∉ s ∧ newline ∉ s := by
  rw [plain, List.all_eq_true]
  constructor
  · intro h
    refine ⟨fun h0 => ?_, fun hn => ?_⟩
    · simpa using h 0 h0
    · simpa using h newline hn
  · rintro ⟨h0, hn⟩ b hb
    have hb0 : b ≠ 0 := fun heq => h0 (heq ▸ hb)
    have hbn : b ≠ newline := fun heq => hn (heq ▸ hb)
    simp [hb0, hbn]

theorem plain_of_isdigit (h : ∀ b ∈ s, isdigit b = true) : plain s = true := by
  -- neither of the two bytes is a digit
  refine plain_iff.mpr ⟨fun h0 => ?_, fun hn => ?_⟩
  · exact absurd (h 0 h0) (by decide)
  · exact absurd (h newline hn) (by decide)

theorem plain_formatNat (n : ℕ) : plain (formatNat n) = true :=
  plain_of_isdigit fun _ hb => isdigit_of_mem_formatNat hb

theorem plain_formatInt (v : ℤ) : plain (formatInt v) = true := by
  rw [formatInt]
  split_ifs
  · exact plain_formatNat _
  · exact plain_formatNat _

theorem plain_formatTime (t : Timeval) : plain (formatTime t) = true := by
  -- the padding is made of zeros
  have hpad : plain (formatPadded 6 (t.tvUsec % 2 ^ 64).toNat) = true := by
    refine plain_of_isdigit fun b hb => ?_
    obtain hb | hb := List.mem_append.mp hb
    · rw [(List.mem_replicate.mp hb).2]
      rfl
    · exact isdigit_of_mem_formatNat hb
  rw [formatTime, plain_append, plain_append, plain_formatNat, hpad]
  rfl

theorem plain_filetype (filename : List UInt8) : plain (requestGetFiletype filename) = true := by
  unfold requestGetFiletype
  split_ifs <;> rfl

/-- A name that may stand in front of a header line. -/
def isTag (tag : String) : Bool :=
  plain (ascii tag) && 0 < (ascii tag).length && (ascii tag).length < 100

/-- A line is one that a client reads as such. -/
theorem headerLine_line (htag : isTag tag = true) (hvalue : plain value = true)
    (hlen : value.length < 100) : HeaderLine (line tag value) := by
  simp only [isTag, Bool.and_eq_true, decide_eq_true_eq] at htag
  obtain ⟨⟨htag, hpos⟩, hshort⟩ := htag
  have hlength : (line tag value).length = (ascii tag).length + value.length + 2 := by
    rw [line, List.length_append, List.length_append]
    rfl
  -- everything in front of the line feed
  have htext : plain (ascii tag ++ value ++ [13]) = true := by
    rw [plain_append, plain_append, htag, hvalue]
    rfl
  refine ⟨⟨ascii tag ++ value ++ [13], (plain_iff.mp htext).2, ?_⟩, ?_, ?_, ?_⟩
  · rw [List.append_assoc _ [13]]
    rfl
  · rw [line, List.mem_append, not_or]
    refine ⟨fun h0 => (plain_iff.mp htext).1 (List.mem_append_left _ h0), by decide⟩
  · -- a name and a value of fewer than 100 bytes each
    rw [hlength, maxbuf]
    omega
  · -- the blank line has no name
    intro heq
    have : (line tag value).length = 2 := by rw [heq]; rfl
    omega

end Lines

/-! ### How long the numbers get -/

theorem length_formatNat_le {n k : ℕ} (hk : 1 ≤ k) (hn : n < 10 ^ k) :
    (formatNat n).length ≤ k := by
  rw [formatNat]
  split_ifs with h0
  · exact hk
  · rw [List.length_map, List.length_reverse]
    exact (Nat.digits_length_le_iff (by decide) n).mpr hn

theorem length_formatInt_le {v : ℤ} (h : -2 ^ 31 ≤ v ∧ v < 2 ^ 31) : (formatInt v).length ≤ 11 := by
  -- ten digits and a sign
  have hle : (formatNat v.natAbs).length ≤ 10 := length_formatNat_le (by decide) (by omega)
  rw [formatInt]
  split_ifs
  · exact Nat.succ_le_succ hle
  · exact hle.trans (by decide)

theorem length_formatTime_le (t : Timeval) : (formatTime t).length ≤ 41 := by
  -- an `unsigned long` has 20 digits at most
  have hle : ∀ v : ℤ, (formatNat (v % 2 ^ 64).toNat).length ≤ 20 := by
    intro v
    refine length_formatNat_le (by decide) ?_
    have := Int.emod_lt_of_pos v (show (0 : ℤ) < 2 ^ 64 by decide)
    omega
  have h1 := hle t.tvSec
  have h2 := hle t.tvUsec
  have hdot : (ascii ".").length = 1 := length_ascii _
  rw [formatTime, formatPadded, List.length_append, List.length_append, List.length_append,
    List.length_replicate, hdot]
  omega

/-! ### Every reply is well formed -/

section Replies

variable {env : Env} {job : Job} {cnt : Counters} {filename : List UInt8} {file : File}
  {chunks : List (List UInt8)}

theorem headerLine_int {tag : String} (htag : isTag tag = true) {v : ℤ}
    (hv : -2 ^ 31 ≤ v ∧ v < 2 ^ 31) : HeaderLine (line tag (formatInt v)) :=
  headerLine_line htag (plain_formatInt v) ((length_formatInt_le hv).trans_lt (by decide))

theorem headerLine_statLines (hindex : job.index < 2 ^ 31) :
    ∀ l ∈ statLines job cnt, HeaderLine l := by
  have htime : ∀ {tag : String} (t : Timeval), isTag tag = true →
      HeaderLine (line tag (formatTime t)) := fun t htag =>
    headerLine_line htag (plain_formatTime t) ((length_formatTime_le t).trans_lt (by decide))
  -- an `int` counter is in the range that `%d` prints in 11 characters
  have hcount : ∀ n : Int32, -2 ^ 31 ≤ n.toInt ∧ n.toInt < 2 ^ 31 := fun n =>
    ⟨n.le_toInt, n.toInt_lt⟩
  rw [statLines]
  simp only [List.forall_mem_cons]
  exact ⟨htime _ (by decide), htime _ (by decide), headerLine_int (by decide) (by omega),
    headerLine_int (by decide) (hcount _), headerLine_int (by decide) (hcount _),
    headerLine_int (by decide) (hcount _), fun l hl => absurd hl List.not_mem_nil⟩

/-- No line of the statistics is taken for the length. -/
theorem scan_statLines : (statLines job cnt).filterMap scanContentLength = [] := rfl

/-- The length is read as it was written. -/
theorem scan_contentLength {v : ℤ} (hv : -2 ^ 31 ≤ v ∧ v < 2 ^ 31) :
    scanContentLength (line "Content-Length: " (formatInt v)) = some v := by
  -- the blank and the carriage return are around the number
  have hsplit : (line "Content-Length: " (formatInt v)).drop 15
      = [32] ++ (formatInt v ++ 13 :: [10]) := rfl
  have hprefix : (ascii "Content-Length:").isPrefixOf (line "Content-Length: " (formatInt v))
      = true := rfl
  rw [scanContentLength, if_pos hprefix, hsplit]
  refine scanInt_formatInt hv ?_ (by decide)
  simp only [List.mem_singleton, forall_eq]
  decide

theorem formatInt_natCast (n : ℕ) : formatInt n = formatNat n := if_neg (not_lt.mpr n.cast_nonneg)

/-- The lines that every reply has, and the one with the length among those in front of them. -/
theorem WellFormed.of_lines {reply : List UInt8} (job : Job) (cnt : Counters)
    (status : List UInt8) (front back : List (List UInt8)) (body : List UInt8)
    (hindex : job.index < 2 ^ 31) (hbody : body.length < 2 ^ 31)
    (hfront : ∀ l ∈ status :: (front ++ back), HeaderLine l)
    (hscan : (front ++ back).filterMap scanContentLength = [])
    (hreply : reply = (status :: (front ++ [line "Content-Length: " (formatInt body.length)] ++
      back ++ statLines job cnt)).flatten ++ crlf ++ body) :
    ∃ lines, WellFormed reply status (lines ++ statLines job cnt) body := by
  have hrange : -2 ^ 31 ≤ (body.length : ℤ) ∧ (body.length : ℤ) < 2 ^ 31 := by omega
  rw [List.forall_mem_cons] at hfront
  refine ⟨_, hreply, List.forall_mem_cons.mpr ⟨hfront.1, fun l hl => ?_⟩, ?_⟩
  · simp only [List.mem_append, List.mem_singleton] at hl
    -- in front of the length, the length, behind it, and the statistics
    obtain ((hl | rfl) | hl) | hl := hl
    · exact hfront.2 l (List.mem_append_left _ hl)
    · exact headerLine_int (by decide) hrange
    · exact hfront.2 l (List.mem_append_right _ hl)
    · exact headerLine_statLines hindex l hl
  · rw [List.filterMap_append, List.append_eq_nil_iff] at hscan
    simp only [List.filterMap_append, hscan.1, hscan.2, scan_statLines, List.append_nil,
      List.nil_append, List.filterMap_cons, List.filterMap_nil, scan_contentLength hrange]

theorem length_errorBody (cause : List UInt8) (errnum shortmsg longmsg : String) :
    (errorBody cause errnum shortmsg longmsg).length = (cstr cause).length + (ascii errnum).length +
      (ascii shortmsg).length + (ascii longmsg).length + 89 := by
  have h₁ : (ascii "<html><title>OS-HW3 Error</title>").length = 33 := length_ascii _
  have h₂ : (ascii "<body bgcolor=fffff>\r\n").length = 22 := length_ascii _
  have h₃ : (ascii ": ").length = 2 := length_ascii _
  have h₄ : (ascii "\r\n").length = 2 := length_ascii _
  have h₅ : (ascii "<p>").length = 3 := length_ascii _
  have h₆ : (ascii "<hr>OS-HW3 Web Server\r\n").length = 23 := length_ascii _
  simp only [errorBody, errorBodies, List.getLastD_cons, List.getLastD_nil, List.length_append, h₁,
    h₂, h₃, h₄, h₅, h₆]
  omega

/-- What the two texts in the first line of an error must be like. The number is not one of those
that begin with `2`. -/
def errorTexts (errnum shortmsg : String) : Bool :=
  plain (ascii errnum ++ ascii " " ++ ascii shortmsg) &&
    (ascii errnum ++ ascii " " ++ ascii shortmsg).length < 100 &&
    (ascii errnum).head?.any (· ≠ 50)

theorem requestError_wellFormed {cause : List UInt8} {errnum shortmsg longmsg : String}
    (htexts : errorTexts errnum shortmsg = true) (hindex : job.index < 2 ^ 31)
    (h : requestError cause errnum shortmsg longmsg job cnt = some chunks) :
    ∃ lines, WellFormed chunks.flatten
      (line "HTTP/1.0 " (ascii errnum ++ ascii " " ++ ascii shortmsg)) (lines ++ statLines job cnt)
      (cstr (errorBody cause errnum shortmsg longmsg)) := by
  rw [requestError] at h
  simp only [errorTexts, Bool.and_eq_true, decide_eq_true_eq] at htexts
  obtain ⟨htexts, -⟩ := htexts
  split_ifs at h with hfits
  -- `body` is an array of `MAXBUF` bytes
  have hbody : (cstr (errorBody cause errnum shortmsg longmsg)).length < 2 ^ 31 :=
    ((List.takeWhile_sublist _).length_le.trans_lt hfits).trans (by decide)
  have hlines : ∀ l ∈ line "HTTP/1.0 " (ascii errnum ++ ascii " " ++ ascii shortmsg) ::
      ([line "Content-Type: text/html" []] ++ []), HeaderLine l := by
    simp only [List.append_nil, List.forall_mem_cons]
    exact ⟨headerLine_line (by decide) htexts.1 htexts.2,
      headerLine_line (by decide) rfl (by decide), fun l hl => absurd hl List.not_mem_nil⟩
  obtain ⟨lines, hform⟩ := WellFormed.of_lines job cnt _ _ [] _ hindex hbody hlines rfl rfl
  rw [formatInt_natCast] at hform
  cases h
  refine ⟨lines, ?_⟩
  convert hform using 1
  simp only [List.flatten_cons, List.flatten_nil, List.flatten_append, List.append_nil,
    List.append_assoc]

/-- A file is announced with the length it is sent with: all of it, unless it is too long for an
`int`. -/
theorem requestServeStatic_wellFormed (hindex : job.index < 2 ^ 31)
    (h : requestServeStatic filename file job cnt = some chunks) :
    ∃ lines body, WellFormed chunks.flatten (line "HTTP/1.0 200 OK" [])
        (lines ++ statLines job cnt) body ∧
      body <+: file.content ∧ (file.content.length < 2 ^ 31 → body = file.content) := by
  rw [requestServeStatic] at h
  split_ifs at h with hfail
  rw [not_or, not_le] at hfail
  set filesize : Int32 := Int32.ofInt file.content.length with hsize
  -- a positive size is what is left of the length in 32 bits
  have hmod : filesize.toInt = (file.content.length : ℤ).bmod (2 ^ 32) := Int32.toInt_ofInt
  -- a length that wraps is cut, and never to more than there is
  have hlen : (file.content.take filesize.toInt.toNat).length = filesize.toInt.toNat := by
    rw [List.length_take, Nat.min_eq_left]
    have := hfail.2
    rw [Int.bmod_def] at hmod
    split_ifs at hmod <;> omega
  have hcast : ((file.content.take filesize.toInt.toNat).length : ℤ) = filesize.toInt := by
    rw [hlen]
    exact Int.toNat_of_nonneg hfail.2.le
  have hlt := filesize.toInt_lt
  have hlines : ∀ l ∈ line "HTTP/1.0 200 OK" [] :: ([line "Server: OS-HW3 Web Server" []] ++
      [line "Content-Type: " (requestGetFiletype filename)]), HeaderLine l := by
    simp only [List.cons_append, List.nil_append, List.forall_mem_cons]
    refine ⟨headerLine_line (by decide) rfl (by decide),
      headerLine_line (by decide) rfl (by decide),
      headerLine_line (by decide) (plain_filetype filename) ?_,
      fun l hl => absurd hl List.not_mem_nil⟩
    unfold requestGetFiletype
    split_ifs <;> decide
  obtain ⟨lines, hform⟩ := WellFormed.of_lines job cnt _ _ _
    (file.content.take filesize.toInt.toNat) hindex (by omega) hlines rfl rfl
  refine ⟨lines, file.content.take filesize.toInt.toNat, ?_, List.take_prefix _ _,
    fun hshort => List.take_of_length_le ?_⟩
  · rw [hcast] at hform
    cases h
    convert hform using 1
    simp only [List.flatten_cons, List.flatten_nil, List.flatten_append, List.append_nil,
      List.append_assoc]
  · -- a length that fits an `int` is the size
    rw [hmod, Int.bmod_eq_of_le (by omega) (by omega)]
    exact le_rfl

theorem refuse_eq {r r' : Rio} {cnt' : Counters} {reply : Option (List (List UInt8))}
    (h : refuse r cnt reply = .returned (chunks, cnt') r') :
    reply = some chunks ∧ cnt' = cnt ∧ r' = r := by
  cases reply with
  | none => cases h
  | some chunks' =>
    cases h
    exact ⟨rfl, rfl, rfl⟩

/-- What can come out of the part behind `requestParseURI`. -/
theorem serve_cases {p : ParsedURI} {r r' : Rio} {cnt' : Counters}
    (h : serve env p r job cnt = .returned (chunks, cnt') r') :
    r' = r ∧
    ((cnt' = cnt ∧ ∃ errnum shortmsg longmsg, errorTexts errnum shortmsg = true ∧
        requestError p.filename errnum shortmsg longmsg job cnt = some chunks) ∨
      (cnt' = cnt.countStatic job.index ∧ ∃ file, env.files p.filename = some file ∧
        requestServeStatic p.filename file job cnt' = some chunks) ∨
      (cnt' = cnt.countDynamic job.index ∧ p.isStatic = false ∧
        (∃ file, env.files p.filename = some file ∧ file.mode.isReg = true ∧
          file.mode.isExecutable = true) ∧
        chunks = requestServeDynamic env p.filename (p.cgiargs.getD []) job cnt')) := by
  unfold serve at h
  cases hfile : env.files p.filename with
  | none =>
    rw [hfile] at h
    obtain ⟨heq, rfl, rfl⟩ := refuse_eq h
    exact ⟨rfl, Or.inl ⟨rfl, _, _, _, by decide, heq⟩⟩
  | some file =>
    rw [hfile] at h
    dsimp only at h
    -- a file that is not sent, a file, a program that is not run, and a program
    split_ifs at h with hstatic hmode hmode
    · obtain ⟨heq, rfl, rfl⟩ := refuse_eq h
      exact ⟨rfl, Or.inl ⟨rfl, _, _, _, by decide, heq⟩⟩
    · cases hserve : requestServeStatic p.filename file job (cnt.countStatic job.index) with
      | none =>
        rw [hserve] at h
        cases h
      | some chunks' =>
        rw [hserve] at h
        cases h
        exact ⟨rfl, Or.inr (Or.inl ⟨rfl, file, rfl, hserve⟩)⟩
    · obtain ⟨heq, rfl, rfl⟩ := refuse_eq h
      exact ⟨rfl, Or.inl ⟨rfl, _, _, _, by decide, heq⟩⟩
    · cases h
      obtain ⟨hreg, hexec⟩ := not_or.mp hmode
      exact ⟨rfl, Or.inr (Or.inr ⟨rfl, Bool.eq_false_of_not_eq_true hstatic, ⟨file, rfl,
        Bool.eq_true_of_not_eq_false hreg, Bool.eq_true_of_not_eq_false hexec⟩, rfl⟩)⟩

/-- What can come out of `requestHandle`: an error, a file, or what a program writes. -/
theorem answerRequest_cases {fuel : ℕ} {r r' : Rio} {cnt' : Counters}
    (h : answerRequest env fuel r job cnt = .returned (chunks, cnt') r') :
    (cnt' = cnt ∧ ∃ cause errnum shortmsg longmsg, errorTexts errnum shortmsg = true ∧
        requestError cause errnum shortmsg longmsg job cnt' = some chunks) ∨
      (cnt' = cnt.countStatic job.index ∧ ∃ filename file, env.files filename = some file ∧
        requestServeStatic filename file job cnt' = some chunks) ∨
      (cnt' = cnt.countDynamic job.index ∧ ∃ p, RunsProgram env fuel r p ∧
        chunks = requestServeDynamic env p.filename (p.cgiargs.getD []) job cnt') := by
  unfold answerRequest at h
  cases hread : Server.requestHandle fuel r with
  | returned value r₁ =>
    obtain ⟨req, known⟩ := value
    rw [hread] at h
    cases known with
    | true =>
      dsimp only at h
      cases hparse : requestParseURI req.uri with
      | none =>
        rw [hparse] at h
        cases h
      | some p =>
        rw [hparse] at h
        dsimp only at h
        split_ifs at h
        -- the uri has been parsed and its parts fit their arrays
        obtain ⟨-, ⟨rfl, errnum, shortmsg, longmsg, htexts, heq⟩ | ⟨hcnt, file, hfile, heq⟩ |
          ⟨hcnt, hdyn, hfile, heq⟩⟩ := serve_cases h
        · exact Or.inl ⟨rfl, _, _, _, _, htexts, heq⟩
        · exact Or.inr (Or.inl ⟨hcnt, _, file, hfile, heq⟩)
        · exact Or.inr (Or.inr ⟨hcnt, p, ⟨⟨req, r₁, hread, hparse⟩, hdyn, hfile⟩, heq⟩)
    | false =>
      obtain ⟨heq, rfl, -⟩ := refuse_eq h
      exact Or.inl ⟨rfl, _, _, _, _, by decide, heq⟩
  | exited | blocked | undefined | running =>
    rw [hread] at h
    cases h

/-- What a program finishes begins with the status line and the header lines of the server. -/
theorem requestServeDynamic_leftOpen (filename args : List UInt8) (hindex : job.index < 2 ^ 31) :
    LeftOpen (requestServeDynamic env filename args job cnt).flatten (line "HTTP/1.0 200 OK" [])
      (line "Server: OS-HW3 Web Server" [] :: statLines job cnt) (env.cgi filename args) where
  parts := by
    simp only [requestServeDynamic, List.flatten_cons, List.flatten_nil, List.append_nil,
      List.append_assoc]
  header l hl := by
    simp only [List.mem_cons] at hl
    obtain rfl | rfl | hl := hl
    · exact headerLine_line (by decide) rfl (by decide)
    · exact headerLine_line (by decide) rfl (by decide)
    · exact headerLine_statLines hindex l hl
  length := by
    rw [List.filterMap_cons, scan_statLines]
    rfl

/-- **Every reply is well formed.** Whatever is sent to the server, whatever files there are and
whatever the counters hold: when `requestHandle` returns, it has written header lines that can be
read one by one, the last of which are the statistics with the counters as they are then, a blank
line and a body of the length that one of the lines gives; or the request asks for a program, and
it has written such lines without a length and left the rest to this program, with the arguments of
the request. -/
theorem requestHandle_wellFormed {fuel : ℕ} {r r' : Rio} {cnt' : Counters}
    (hindex : job.index < 2 ^ 31)
    (h : requestHandle env fuel r job cnt = .returned (chunks, cnt') r') :
    (∃ status lines body,
        WellFormed chunks.flatten status (lines ++ statLines job cnt') body) ∨
      ∃ p status lines, RunsProgram env fuel r p ∧
        LeftOpen chunks.flatten status (lines ++ statLines job cnt')
          (env.cgi p.filename (p.cgiargs.getD [])) := by
  obtain ⟨-, _, _, _, _, htexts, heq⟩ | ⟨-, filename, file, -, heq⟩ | ⟨-, p, hruns, rfl⟩ :=
    answerRequest_cases h
  · -- an error
    obtain ⟨lines, hform⟩ := requestError_wellFormed htexts hindex heq
    exact Or.inl ⟨_, lines, _, hform⟩
  · -- a file
    obtain ⟨lines, body, hform, -⟩ := requestServeStatic_wellFormed hindex heq
    exact Or.inl ⟨_, lines, body, hform⟩
  · -- a program, which writes the rest
    exact Or.inr ⟨p, _, [line "Server: OS-HW3 Web Server" []], hruns,
      requestServeDynamic_leftOpen _ _ hindex⟩

end Replies

/-- A server without files, where every program writes nothing. -/
def emptyEnv : Env := ⟨fun _ => none, fun _ _ => []⟩

/-- A method that is not implemented. -/
theorem requestHandle_post (job : Job) :
    ∃ chunks, requestHandle emptyEnv 1
        (Rio.readinitb [.data (ascii "POST / HTTP/1.1\n")] true) job .zero
        = .returned (chunks, Counters.zero.countTotal job.index) ⟨[], [], true⟩ := by
  have hread : Server.requestHandle 1 (Rio.readinitb [.data (ascii "POST / HTTP/1.1\n")] true)
      = .returned (⟨ascii "POST", ascii "/", ascii "HTTP/1.1"⟩, false) ⟨[], [], true⟩ := by
    decide
  have hfits : (errorBody (ascii "POST") "501" "Not Implemented"
      "OS-HW3 Server does not implement this method").length < maxbuf := by
    rw [length_errorBody]
    decide
  obtain ⟨chunks, hchunks⟩ : ∃ chunks, requestError (ascii "POST") "501" "Not Implemented"
      "OS-HW3 Server does not implement this method" job
      (Counters.zero.countTotal job.index) = some chunks := by
    rw [requestError, if_pos hfits]
    exact ⟨_, rfl⟩
  refine ⟨chunks, ?_⟩
  rw [requestHandle, answerRequest, hread]
  dsimp only
  rw [hchunks]
  rfl

/-- The theorem for that method. -/
theorem requestHandle_wellFormed_post :
    ∃ chunks cnt r, requestHandle emptyEnv 1
        (Rio.readinitb [.data (ascii "POST / HTTP/1.1\n")] true) ⟨⟨0, 0⟩, ⟨0, 0⟩, 0⟩ .zero
        = .returned (chunks, cnt) r ∧
      ((∃ status lines body, WellFormed chunks.flatten status
          (lines ++ statLines ⟨⟨0, 0⟩, ⟨0, 0⟩, 0⟩ cnt) body) ∨
        ∃ p status lines,
          RunsProgram emptyEnv 1 (Rio.readinitb [.data (ascii "POST / HTTP/1.1\n")] true) p ∧
          LeftOpen chunks.flatten status (lines ++ statLines ⟨⟨0, 0⟩, ⟨0, 0⟩, 0⟩ cnt)
            (emptyEnv.cgi p.filename (p.cgiargs.getD []))) := by
  obtain ⟨chunks, h⟩ := requestHandle_post ⟨⟨0, 0⟩, ⟨0, 0⟩, 0⟩
  exact ⟨chunks, _, _, h, requestHandle_wellFormed (by decide) h⟩

end Reply
end Server
end OsHomework
