import OsHomework.Server.Request
import OsHomework.Server.Uri

/-!
# The fixed arrays of the request handler

Every array of `requestHandle`, `requestParseURI` and `requestError` has `8192`
bytes, the line that is read first as well. A word of the line always fits, but
the file name is longer than the uri and the text of an error is longer than the
method or the file name in it.

`requestHandle` is given here as the list of what it does with its arrays, in
order (`handleAccesses`): the strings it reads, which must have been stored, and
those it stores, which must fit. The headers are taken as read, and what `stat`
answers is a parameter; it refuses every path that does not fit `PATH_MAX`.

The texts of `requestError` are put together by calls `sprintf(body, "%s…", body)`
and are modelled as what these append to the array.
-/

namespace OsHomework
namespace Server

/-- `MAXBUF`. -/
def maxbuf : ℕ := 8192

/-- `PATH_MAX`, which counts the terminator: `stat` refuses longer paths. -/
def pathMax : ℕ := 4096

/-- `st_mode`, as far as the handler looks at it. -/
structure FileMode where
  isReg : Bool
  isReadable : Bool
  isExecutable : Bool
  deriving DecidableEq, Repr

/-- One use of an array. -/
inductive Access
  /-- The string in the array is read; `none` when nothing has been stored in it. -/
  | reads (content : Option (List UInt8))
  /-- A string is stored in an array of the given size. -/
  | stores (size : ℕ) (content : List UInt8)
  /-- `requestParseURI` is called. -/
  | parses (uri : List UInt8)
  deriving DecidableEq, Repr

/-- The access is a proper one. -/
def Access.Ok : Access → Prop
  | .reads content => content.isSome = true
  | .stores size content => content.length + 1 ≤ size
  | .parses uri => uri ≠ []

/-- The contents of `body` in `requestError`, after each `sprintf`. -/
def errorBodies (cause errnum shortmsg longmsg : List UInt8) : List (List UInt8) :=
  let body₁ := ascii "<html><title>OS-HW3 Error</title>"
  let body₂ := body₁ ++ ascii "<body bgcolor=fffff>\r\n"
  let body₃ := body₂ ++ errnum ++ ascii ": " ++ shortmsg ++ ascii "\r\n"
  let body₄ := body₃ ++ ascii "<p>" ++ longmsg ++ ascii ": " ++ cause ++ ascii "\r\n"
  let body₅ := body₄ ++ ascii "<hr>OS-HW3 Web Server\r\n"
  [body₁, body₂, body₃, body₄, body₅]

/-- `requestError`. -/
def requestError (cause errnum shortmsg longmsg : List UInt8) : List Access :=
  .reads (some cause) :: (errorBodies cause errnum shortmsg longmsg).map (.stores maxbuf)

/-- The end of `requestHandle`, with the file name that `requestParseURI` has stored. -/
def serveAccesses (stat : List UInt8 → Option FileMode) (p : ParsedURI) : List Access :=
  match stat p.filename with
  | none =>
    requestError p.filename (ascii "404") (ascii "Not found")
      (ascii "OS-HW3 Server could not find this file")
  | some mode =>
    if p.isStatic then
      if mode.isReg = false ∨ mode.isReadable = false then
        requestError p.filename (ascii "403") (ascii "Forbidden")
          (ascii "OS-HW3 Server could not read this file")
      else []
    else if mode.isReg = false ∨ mode.isExecutable = false then
      requestError p.filename (ascii "403") (ascii "Forbidden")
        (ascii "OS-HW3 Server could not run this CGI program")
    else []

/-- The part of `requestHandle` from the call of `requestParseURI` on. -/
def uriAccesses (stat : List UInt8 → Option FileMode) (uri : List UInt8) : List Access :=
  .parses uri ::
    match requestParseURI uri with
    | none => []
    | some p => p.stored.map (.stores maxline) ++ serveAccesses stat p

/-- The part of `requestHandle` behind `sscanf`, with what this has stored. -/
def wordAccesses (stat : List UInt8 → Option FileMode) :
    Option (List UInt8) × Option (List UInt8) × Option (List UInt8) → List Access
  -- `printf` reads the arrays, stored in or not
  | (none, uri, _) => [.reads none, .reads uri]
  | (some method, none, _) => [.stores maxline method, .reads (some method), .reads none]
  | (some method, some uri, version) =>
    [.stores maxline method, .stores maxline uri] ++ version.toList.map (.stores maxline) ++
      [.reads (some method), .reads (some uri)] ++
      if strcaseEq method (ascii "GET") = false then
        requestError method (ascii "501") (ascii "Not Implemented")
          (ascii "OS-HW3 Server does not implement this method")
      else uriAccesses stat uri

/-- What `requestHandle` does with its arrays, for the line in `buf`. -/
def handleAccesses (stat : List UInt8 → Option FileMode) (buf : List UInt8) : List Access :=
  wordAccesses stat (scanRequestLine buf)

/-! ### When everything fits -/

/-- The uri leaves room for what is put around it: it is refused for a `".."`, or
its part that names the file is short enough for the text of a `404`. -/
def UriFits (uri : List UInt8) : Prop :=
  parentDir <:+: uri ∨
    if cgi <:+: uri then (uri.takeWhile (· ≠ questionMark)).length ≤ 8043
    else if uri.getLast? = some slash then uri.length ≤ 8034
    else uri.length ≤ 8043

/-- The line has two words, and its method or its uri leaves room for the rest. -/
def LineFits (buf : List UInt8) : Prop :=
  ∃ method uri version, scanRequestLine buf = (some method, some uri, version) ∧
    if strcaseEq method (ascii "GET") = false then method.length ≤ 8040 else UriFits uri

/-- The text of an error fits when its cause is short enough. -/
theorem requestError_ok_iff (cause errnum shortmsg longmsg : List UInt8) :
    (∀ a ∈ requestError cause errnum shortmsg longmsg, a.Ok) ↔
      cause.length + errnum.length + shortmsg.length + longmsg.length + 89 < maxbuf := by
  have h₁ : (ascii "<html><title>OS-HW3 Error</title>").length = 33 := length_ascii _
  have h₂ : (ascii "<body bgcolor=fffff>\r\n").length = 22 := length_ascii _
  have h₃ : (ascii ": ").length = 2 := length_ascii _
  have h₄ : (ascii "\r\n").length = 2 := length_ascii _
  have h₅ : (ascii "<p>").length = 3 := length_ascii _
  have h₆ : (ascii "<hr>OS-HW3 Web Server\r\n").length = 23 := length_ascii _
  simp only [requestError, errorBodies, List.map_cons, List.map_nil, List.forall_mem_cons,
    Access.Ok, Option.isSome_some, true_and, List.length_append, h₁, h₂, h₃, h₄, h₅, h₆,
    List.not_mem_nil, false_imp_iff, implies_true, and_true]
  -- the last text is the longest
  omega

/-- The words of a line are not empty, hold no `NUL` and are no longer than the line. -/
theorem scanRequestLine_spec {buf method uri : List UInt8} {version : Option (List UInt8)}
    (h : scanRequestLine buf = (some method, some uri, version)) :
    uri ≠ [] ∧ 0 ∉ uri ∧ method.length ≤ buf.length ∧ uri.length ≤ buf.length ∧
      ∀ v ∈ version, v.length ≤ buf.length := by
  unfold scanRequestLine at h
  have hbuf : (cstr buf).length ≤ buf.length := (List.takeWhile_sublist _).length_le
  cases h₁ : scanWord (cstr buf) with
  | none => simp [h₁] at h
  | some p₁ =>
    obtain ⟨w₁, s₁⟩ := p₁
    simp only [h₁] at h
    obtain ⟨-, hsuf₁⟩ := scanWord_spec h₁
    have hlen₁ := hsuf₁.length_le
    rw [List.length_append] at hlen₁
    cases h₂ : scanWord s₁ with
    | none => simp [h₂] at h
    | some p₂ =>
      obtain ⟨w₂, s₂⟩ := p₂
      simp only [h₂] at h
      obtain ⟨hne₂, hsuf₂⟩ := scanWord_spec h₂
      have hlen₂ := hsuf₂.length_le
      rw [List.length_append] at hlen₂
      -- the second word lies in the string of the line
      have hmem : ∀ b ∈ w₂, b ∈ cstr buf := fun b hb =>
        hsuf₁.subset (List.mem_append_right _ (hsuf₂.subset (List.mem_append_left _ hb)))
      have hnul : 0 ∉ w₂ := fun hb => zero_notMem_cstr buf (hmem 0 hb)
      cases h₃ : scanWord s₂ with
      | none =>
        simp only [h₃, Prod.mk.injEq, Option.some.injEq] at h
        obtain ⟨rfl, rfl, rfl⟩ := h
        exact ⟨hne₂, hnul, by omega, by omega, by simp⟩
      | some p₃ =>
        obtain ⟨w₃, s₃⟩ := p₃
        obtain ⟨-, hsuf₃⟩ := scanWord_spec h₃
        have hlen₃ := hsuf₃.length_le
        rw [List.length_append] at hlen₃
        simp only [h₃, Prod.mk.injEq, Option.some.injEq] at h
        obtain ⟨rfl, rfl, rfl⟩ := h
        refine ⟨hne₂, hnul, by omega, by omega, fun v hv => ?_⟩
        obtain rfl : w₃ = v := by simpa using hv
        omega

section

variable {stat : List UInt8 → Option FileMode}

/-- A file name that `stat` accepts is far from the bound, so only the text of a `404` can be too
long. -/
theorem serveAccesses_ok_iff (hstat : ∀ path, pathMax ≤ path.length → stat path = none)
    (p : ParsedURI) : (∀ a ∈ serveAccesses stat p, a.Ok) ↔ p.filename.length ≤ 8052 := by
  have h403 : (ascii "403").length = 3 := length_ascii _
  have hforbidden : (ascii "Forbidden").length = 9 := length_ascii _
  have hread : (ascii "OS-HW3 Server could not read this file").length = 38 := length_ascii _
  have hrun : (ascii "OS-HW3 Server could not run this CGI program").length = 44 := length_ascii _
  have hbuf : maxbuf = 8192 := rfl
  unfold serveAccesses
  cases hst : stat p.filename with
  | none =>
    have h404 : (ascii "404").length = 3 := length_ascii _
    have hnot : (ascii "Not found").length = 9 := length_ascii _
    have hfind : (ascii "OS-HW3 Server could not find this file").length = 38 := length_ascii _
    rw [requestError_ok_iff, h404, hnot, hfind]
    omega
  | some mode =>
    -- the file exists, so its name is shorter than `PATH_MAX` and a `403` has room for it
    have hshort : p.filename.length < 4096 := by
      by_contra hlong
      rw [hstat p.filename (not_lt.mp hlong)] at hst
      cases hst
    refine iff_of_true ?_ (by omega)
    dsimp only
    split
    · split
      · rw [requestError_ok_iff, h403, hforbidden, hread]
        omega
      · exact fun a ha => absurd ha List.not_mem_nil
    · split
      · rw [requestError_ok_iff, h403, hforbidden, hrun]
        omega
      · exact fun a ha => absurd ha List.not_mem_nil

/-- What `requestParseURI` stores fits if the text of the error that follows does. -/
theorem uriAccesses_ok_iff (hstat : ∀ path, pathMax ≤ path.length → stat path = none)
    {uri : List UInt8} (hne : uri ≠ []) {p : ParsedURI} (hp : requestParseURI uri = some p)
    (hstored : p.filename.length ≤ 8052 → ∀ t ∈ p.stored, t.length < maxline) :
    (∀ a ∈ uriAccesses stat uri, a.Ok) ↔ p.filename.length ≤ 8052 := by
  unfold uriAccesses
  rw [hp, List.forall_mem_cons, and_iff_right (show Access.Ok (.parses uri) from hne)]
  dsimp only
  rw [List.forall_mem_append, serveAccesses_ok_iff hstat]
  refine ⟨fun h => h.2, fun h => ⟨fun a ha => ?_, h⟩⟩
  obtain ⟨t, ht, rfl⟩ := List.mem_map.mp ha
  exact hstored h t ht

/-- What `index` cuts off in front of the `?`. -/
theorem takeWhile_questionMark {path args : List UInt8} (hpath : questionMark ∉ path) :
    (path ++ questionMark :: args).takeWhile (· ≠ questionMark) = path := by
  have hall : ∀ b ∈ path, decide (b ≠ questionMark) = true := by
    intro b hb
    have hbne : b ≠ questionMark := fun heq => hpath (heq ▸ hb)
    simpa using hbne
  rw [List.takeWhile_append_of_pos hall]
  simp

theorem takeWhile_of_notMem {uri : List UInt8} (h : questionMark ∉ uri) :
    uri.takeWhile (· ≠ questionMark) = uri := by
  apply List.takeWhile_eq_self_iff.mpr
  intro b hb
  have hbne : b ≠ questionMark := fun heq => h (heq ▸ hb)
  simpa using hbne

theorem length_publicDir : publicDir.length = 9 := length_ascii _

theorem length_homeHtml : homeHtml.length = 9 := length_ascii _

/-- With `..` in the uri the file is the home page, whose name is short. -/
theorem uri_ok_of_parentDir (hstat : ∀ path, pathMax ≤ path.length → stat path = none)
    {uri : List UInt8} (hne : uri ≠ []) (hcstr : cstr uri = uri) (hdots : parentDir <:+: uri) :
    ∀ a ∈ uriAccesses stat uri, a.Ok := by
  have hmax : maxline = 8192 := rfl
  have hpublic := length_publicDir
  have hhome := length_homeHtml
  have hp := requestParseURI_of_parentDir (show parentDir <:+: cstr uri by rwa [hcstr])
  refine (uriAccesses_ok_iff hstat hne hp fun _ t ht => ?_).mpr ?_
  · rw [List.mem_singleton.mp ht, List.length_append]
    omega
  · rw [List.length_append]
    omega

/-- A program: the name is what stands in front of the `?`. -/
theorem uri_ok_dynamic_iff (hstat : ∀ path, pathMax ≤ path.length → stat path = none)
    {uri : List UInt8} (hne : uri ≠ []) (hcstr : cstr uri = uri) (hlen : uri.length < maxline)
    (hdots : ¬ parentDir <:+: uri) (hcgi : cgi <:+: uri) :
    (∀ a ∈ uriAccesses stat uri, a.Ok) ↔
      (uri.takeWhile (· ≠ questionMark)).length ≤ 8043 := by
  have hmax : maxline = 8192 := rfl
  have hpublic := length_publicDir
  have hp := requestParseURI_of_dynamic (show ¬ parentDir <:+: cstr uri by rwa [hcstr])
    (by rwa [hcstr])
  cases hindex : index uri questionMark with
  | none =>
    -- without arguments: the empty text and the name are stored
    have hnot := index_eq_none hindex
    rw [hindex, hcstr] at hp
    rw [hcstr] at hnot
    refine (uriAccesses_ok_iff hstat hne hp fun hname t ht => ?_).trans ?_
    · rcases List.mem_cons.mp ht with rfl | ht
      · rw [List.length_nil]
        omega
      · rw [List.mem_singleton.mp ht]
        dsimp only at hname
        omega
    · rw [takeWhile_of_notMem hnot, List.length_append]
      omega
  | some q =>
    -- with arguments, which are shorter than the uri
    obtain ⟨path, args⟩ := q
    obtain ⟨huri, hpath⟩ := index_eq_some hindex
    rw [hindex] at hp
    rw [hcstr] at huri
    have hargs : path.length + (args.length + 1) = uri.length := by
      rw [huri, List.length_append, List.length_cons]
    refine (uriAccesses_ok_iff hstat hne hp fun hname t ht => ?_).trans ?_
    · rcases List.mem_cons.mp ht with rfl | ht
      · omega
      · rw [List.mem_singleton.mp ht]
        dsimp only at hname
        omega
    · rw [huri, takeWhile_questionMark hpath, List.length_append]
      omega

/-- A file: the name is the whole uri, with `home.html` behind a `/`. -/
theorem uri_ok_static_iff (hstat : ∀ path, pathMax ≤ path.length → stat path = none)
    {uri : List UInt8} (hne : uri ≠ []) (hcstr : cstr uri = uri)
    (hdots : ¬ parentDir <:+: uri) (hcgi : ¬ cgi <:+: uri) :
    (∀ a ∈ uriAccesses stat uri, a.Ok) ↔
      if uri.getLast? = some slash then uri.length ≤ 8034 else uri.length ≤ 8043 := by
  have hmax : maxline = 8192 := rfl
  have hpublic := length_publicDir
  have hhome := length_homeHtml
  have hp := requestParseURI_of_static (show ¬ parentDir <:+: cstr uri by rwa [hcstr])
    (by rwa [hcstr]) (by rwa [hcstr])
  rw [hcstr] at hp
  by_cases hlast : uri.getLast? = some slash
  · rw [if_pos hlast] at hp ⊢
    refine (uriAccesses_ok_iff hstat hne hp fun hname t ht => ?_).trans ?_
    · simp only [List.length_append] at hname
      simp only [List.mem_cons, List.not_mem_nil, or_false] at ht
      -- the empty arguments, the name, and the name with `home.html`
      rcases ht with rfl | rfl | rfl
      · rw [List.length_nil]
        omega
      · rw [List.length_append]
        omega
      · rw [List.length_append, List.length_append]
        omega
    · rw [List.length_append, List.length_append]
      omega
  · rw [if_neg hlast] at hp ⊢
    refine (uriAccesses_ok_iff hstat hne hp fun hname t ht => ?_).trans ?_
    · simp only [List.length_append] at hname
      simp only [List.mem_cons, List.not_mem_nil, or_false] at ht
      rcases ht with rfl | rfl
      · rw [List.length_nil]
        omega
      · rw [List.length_append]
        omega
    · rw [List.length_append]
      omega

/-- The part of the handler behind the headers. -/
theorem uri_ok_iff (hstat : ∀ path, pathMax ≤ path.length → stat path = none) {uri : List UInt8}
    (hne : uri ≠ []) (hnul : 0 ∉ uri) (hlen : uri.length < maxline) :
    (∀ a ∈ uriAccesses stat uri, a.Ok) ↔ UriFits uri := by
  have hcstr : cstr uri = uri := cstr_eq_self hnul
  unfold UriFits
  by_cases hdots : parentDir <:+: uri
  · exact iff_of_true (uri_ok_of_parentDir hstat hne hcstr hdots) (Or.inl hdots)
  · rw [or_iff_right hdots]
    by_cases hcgi : cgi <:+: uri
    · rw [if_pos hcgi]
      exact uri_ok_dynamic_iff hstat hne hcstr hlen hdots hcgi
    · rw [if_neg hcgi]
      exact uri_ok_static_iff hstat hne hcstr hdots hcgi

/-- The words of a line that fits `buf` fit the arrays they are stored in. -/
theorem words_ok {method uri : List UInt8} {version : Option (List UInt8)}
    (hmethod : method.length < maxline) (huri : uri.length < maxline)
    (hversion : ∀ v ∈ version, v.length < maxline) :
    ∀ a ∈ [Access.stores maxline method, .stores maxline uri] ++
      version.toList.map (Access.stores maxline) ++ [.reads (some method), .reads (some uri)],
      a.Ok := by
  intro a ha
  simp only [List.mem_append, List.mem_cons, List.not_mem_nil, or_false, List.mem_map,
    Option.mem_toList] at ha
  rcases ha with ((rfl | rfl) | ⟨v, hv, rfl⟩) | (rfl | rfl)
  · exact hmethod
  · exact huri
  · exact hversion v hv
  · rfl
  · rfl

/-- A line of two words fits by its method, or by its uri. -/
theorem lineFits_iff_of_words {buf method uri : List UInt8} {version : Option (List UInt8)}
    (h : scanRequestLine buf = (some method, some uri, version)) :
    LineFits buf ↔
      if strcaseEq method (ascii "GET") = false then method.length ≤ 8040 else UriFits uri := by
  constructor
  · rintro ⟨method', uri', version', hscan, hfits⟩
    rw [h] at hscan
    simp only [Prod.mk.injEq, Option.some.injEq] at hscan
    obtain ⟨rfl, rfl, rfl⟩ := hscan
    exact hfits
  · intro hfits
    exact ⟨method, uri, version, h, hfits⟩

/-- With a word missing an array is read that nothing was stored in. -/
theorem ok_iff_of_missing {buf : List UInt8} (hreads : Access.reads none ∈ handleAccesses stat buf)
    (hmissing : (scanRequestLine buf).1 = none ∨ (scanRequestLine buf).2.1 = none) :
    (∀ a ∈ handleAccesses stat buf, a.Ok) ↔ LineFits buf := by
  refine iff_of_false (fun h => ?_) ?_
  · have hok := h _ hreads
    simp [Access.Ok] at hok
  · rintro ⟨method, uri, version, hscan, -⟩
    rw [hscan] at hmissing
    rcases hmissing with hnone | hnone
    · cases hnone
    · cases hnone

/-- **The arrays of the handler.** For every line that fits `buf`, the handler reads only arrays
that were stored in, calls `requestParseURI` with a uri that is not empty and stores only what fits,
exactly when `LineFits` holds of the line. -/
theorem buffers_ok_iff (stat : List UInt8 → Option FileMode)
    (hstat : ∀ path, pathMax ≤ path.length → stat path = none) (buf : List UInt8)
    (hbuf : buf.length ≤ maxline - 1) :
    (∀ a ∈ handleAccesses stat buf, a.Ok) ↔ LineFits buf := by
  have hmax : maxline = 8192 := rfl
  rcases hscan : scanRequestLine buf with ⟨_ | method, _ | uri, version⟩
  · -- no word at all
    exact ok_iff_of_missing (by simp [handleAccesses, hscan, wordAccesses]) (by simp [hscan])
  · exact ok_iff_of_missing (by simp [handleAccesses, hscan, wordAccesses]) (by simp [hscan])
  · -- one word: the uri is printed all the same
    exact ok_iff_of_missing (by simp [handleAccesses, hscan, wordAccesses]) (by simp [hscan])
  · obtain ⟨hne, hnul, hmethod, huri, hversion⟩ := scanRequestLine_spec hscan
    have hwords := words_ok (show method.length < maxline by omega)
      (show uri.length < maxline by omega) fun v hv => (hversion v hv).trans_lt (by omega)
    rw [lineFits_iff_of_words hscan, handleAccesses, hscan, wordAccesses, List.forall_mem_append,
      and_iff_right hwords]
    by_cases hget : strcaseEq method (ascii "GET") = false
    · -- the method is the cause in the text of a `501`
      have h501 : (ascii "501").length = 3 := length_ascii _
      have hshort : (ascii "Not Implemented").length = 15 := length_ascii _
      have hlong : (ascii "OS-HW3 Server does not implement this method").length = 44 :=
        length_ascii _
      have hbody : maxbuf = 8192 := rfl
      rw [if_pos hget, if_pos hget, requestError_ok_iff, h501, hshort, hlong]
      omega
    · rw [if_neg hget, if_neg hget]
      exact uri_ok_iff hstat hne hnul (by omega)

end

/-- An ordinary request line. -/
theorem buffers_ok_iff_sample :
    scanRequestLine (ascii "GET /home.html HTTP/1.1\r\n")
        = (some (ascii "GET"), some (ascii "/home.html"), some (ascii "HTTP/1.1")) ∧
      ∀ a ∈ handleAccesses (fun _ => none) (ascii "GET /home.html HTTP/1.1\r\n"), a.Ok := by
  have hscan : scanRequestLine (ascii "GET /home.html HTTP/1.1\r\n")
      = (some (ascii "GET"), some (ascii "/home.html"), some (ascii "HTTP/1.1")) := by decide
  refine ⟨hscan, (buffers_ok_iff (fun _ => none) (fun _ _ => rfl)
    (ascii "GET /home.html HTTP/1.1\r\n") (by decide)).mpr ⟨_, _, _, hscan, ?_⟩⟩
  rw [if_neg (by decide)]
  exact Or.inr (by decide)

/-- A line with one word: the uri is printed although nothing was stored in it. -/
theorem uri_read_unassigned :
    ¬ ∀ a ∈ handleAccesses (fun _ => none) (ascii "GET\r\n"), a.Ok := by
  intro h
  have hscan : scanRequestLine (ascii "GET\r\n") = (some (ascii "GET"), none, none) := by decide
  have hmem : Access.reads none ∈ handleAccesses (fun _ => none) (ascii "GET\r\n") := by
    rw [handleAccesses, hscan]
    simp [wordAccesses]
  exact absurd (h _ hmem) (by simp [Access.Ok])

end Server
end OsHomework
