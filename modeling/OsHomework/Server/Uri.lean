import Mathlib.Data.List.Infix
import OsHomework.Lib.CString

/-!
# From a uri to a file name

`requestParseURI` of `request.c`. The file name is `"./public/"` in front of the
uri, or of the part of it before a `?` when the uri names a program, and
`home.html` may be put behind it.

A `".."` in the uri is refused, so one in the file name could only come from
where two parts meet. Both parts that are added have a `/` there, and cutting the
uri off removes bytes, so there is none (`parentDir_notInfix_publicDir`).
-/

namespace OsHomework
namespace Server

/-- `".."`. -/
def parentDir : List UInt8 := ascii ".."

/-- `"cgi"`. -/
def cgi : List UInt8 := ascii "cgi"

/-- `"./public/"`. -/
def publicDir : List UInt8 := ascii "./public/"

/-- `"home.html"`. -/
def homeHtml : List UInt8 := ascii "home.html"

/-- `'/'`. -/
def slash : UInt8 := 47

/-- `'?'`. -/
def questionMark : UInt8 := 63

/-- What `requestParseURI` leaves behind. -/
structure ParsedURI where
  /-- The result: `true` for `1`, `false` for `0`. -/
  isStatic : Bool
  filename : List UInt8
  /-- `none` when nothing is stored in the array. -/
  cgiargs : Option (List UInt8)
  /-- Every string that is stored in `filename` or `cgiargs` on the way. -/
  stored : List (List UInt8)
  deriving DecidableEq, Repr

/-- `requestParseURI`. It reads the byte in front of the array when the uri is
empty, which is `none` here. -/
def requestParseURI (uri : List UInt8) : Option ParsedURI :=
  if strstr uri parentDir then
    let filename := publicDir ++ homeHtml
    some ⟨true, filename, none, [filename]⟩
  else if strstr uri cgi = false then
    let filename := publicDir ++ cstr uri
    match (cstr uri).getLast? with
    | none => none
    | some c =>
      if c = slash then
        some ⟨true, filename ++ homeHtml, some [], [[], filename, filename ++ homeHtml]⟩
      else some ⟨true, filename, some [], [[], filename]⟩
  else
    match index uri questionMark with
    | some (path, args) =>
      -- the `?` is overwritten, so the uri ends in front of it
      some ⟨false, publicDir ++ path, some args, [args, publicDir ++ path]⟩
    | none => some ⟨false, publicDir ++ cstr uri, some [], [[], publicDir ++ cstr uri]⟩

/-! ### No way out of the directory -/

/-- Nothing that is put behind `"./public/"` makes a `".."` with it. -/
theorem parentDir_notInfix_publicDir {s : List UInt8} (h : ¬ parentDir <:+: s) :
    ¬ parentDir <:+: publicDir ++ s := by
  intro hin
  -- in the first part, in the second one, or where they meet
  rcases pair_infix_append hin with hin | hin | ⟨hlast, -⟩
  · exact absurd hin (by decide)
  · exact h hin
  · exact absurd hlast (by decide)

/-- Neither does `home.html` behind anything. -/
theorem parentDir_notInfix_homeHtml {s : List UInt8} (h : ¬ parentDir <:+: s) :
    ¬ parentDir <:+: s ++ homeHtml := by
  intro hin
  -- `home.html` does not begin with a dot
  rcases pair_infix_append hin with hin | hin | ⟨-, hhead⟩
  · exact h hin
  · exact absurd hin (by decide)
  · exact absurd hhead (by decide)

theorem strstr_iff {s p : List UInt8} (hp : 0 ∉ p) : strstr s p = true ↔ p <:+: cstr s := by
  rw [strstr, decide_eq_true_iff, cstr_eq_self hp]

/-- A uri with a `".."` is answered with the home page. -/
theorem requestParseURI_of_parentDir {uri : List UInt8} (h : parentDir <:+: cstr uri) :
    requestParseURI uri =
      some ⟨true, publicDir ++ homeHtml, none, [publicDir ++ homeHtml]⟩ := by
  unfold requestParseURI
  rw [if_pos ((strstr_iff (by decide)).mpr h)]

/-- A uri of a file. -/
theorem requestParseURI_of_static {uri : List UInt8} (hdots : ¬ parentDir <:+: cstr uri)
    (hcgi : ¬ cgi <:+: cstr uri) (hne : cstr uri ≠ []) :
    requestParseURI uri = some
      (if (cstr uri).getLast? = some slash then
        ⟨true, publicDir ++ cstr uri ++ homeHtml, some [],
          [[], publicDir ++ cstr uri, publicDir ++ cstr uri ++ homeHtml]⟩
      else ⟨true, publicDir ++ cstr uri, some [], [[], publicDir ++ cstr uri]⟩) := by
  have hdots' : ¬ strstr uri parentDir = true := by rwa [strstr_iff (by decide)]
  have hcgi' : strstr uri cgi = false := by
    rw [← Bool.not_eq_true, strstr_iff (by decide)]
    exact hcgi
  unfold requestParseURI
  rw [if_neg hdots', if_pos hcgi', List.getLast?_eq_some_getLast hne]
  dsimp only
  by_cases hlast : (cstr uri).getLast hne = slash
  · rw [if_pos hlast, if_pos (congrArg some hlast)]
  · rw [if_neg hlast, if_neg fun heq => hlast (Option.some.inj heq)]

/-- A uri of a program. -/
theorem requestParseURI_of_dynamic {uri : List UInt8} (hdots : ¬ parentDir <:+: cstr uri)
    (hcgi : cgi <:+: cstr uri) :
    requestParseURI uri = some
      (match index uri questionMark with
      | some (path, args) => ⟨false, publicDir ++ path, some args, [args, publicDir ++ path]⟩
      | none => ⟨false, publicDir ++ cstr uri, some [], [[], publicDir ++ cstr uri]⟩) := by
  have hdots' : ¬ strstr uri parentDir = true := by rwa [strstr_iff (by decide)]
  have hcgi' : ¬ strstr uri cgi = false := by
    rw [Bool.not_eq_false, strstr_iff (by decide)]
    exact hcgi
  unfold requestParseURI
  rw [if_neg hdots', if_neg hcgi']
  cases index uri questionMark with
  | none => rfl
  | some p => rfl

/-! ### What the result says about the uri -/

/-- `requestParseURI` confines the file name and splits the uri. -/
structure Confined (uri : List UInt8) (p : ParsedURI) : Prop where
  inside : publicDir <+: p.filename ∧ ¬ parentDir <:+: p.filename
  /-- A program: the file is named by the uri in front of its first `?`, the
  arguments are what follows it. -/
  dynamic : p.isStatic = false → ∃ path args, p.cgiargs = some args ∧ questionMark ∉ path ∧
    p.filename = publicDir ++ path ∧
    (cstr uri = path ∧ args = [] ∨ cstr uri = path ++ questionMark :: args)
  /-- A file: named by the whole uri, and by its home page for a directory. -/
  static : p.isStatic = true → ¬ parentDir <:+: cstr uri →
    ((cstr uri).getLast? = some slash → p.filename = publicDir ++ cstr uri ++ homeHtml) ∧
    ((cstr uri).getLast? ≠ some slash → p.filename = publicDir ++ cstr uri)
  dynamic_iff : p.isStatic = false ↔ cgi <:+: cstr uri ∧ ¬ parentDir <:+: cstr uri

section

variable {uri : List UInt8}

theorem Confined.of_static (hdots : ¬ parentDir <:+: cstr uri) (hcgi : ¬ cgi <:+: cstr uri)
    {p : ParsedURI} (hp : p.isStatic = true)
    (hname : p.filename = if (cstr uri).getLast? = some slash then
      publicDir ++ cstr uri ++ homeHtml else publicDir ++ cstr uri) : Confined uri p where
  inside := by
    have hpublic := parentDir_notInfix_publicDir hdots
    rw [hname]
    split
    · refine ⟨?_, parentDir_notInfix_homeHtml hpublic⟩
      rw [List.append_assoc]
      exact List.prefix_append _ _
    · exact ⟨List.prefix_append _ _, hpublic⟩
  dynamic h := by
    rw [hp] at h
    cases h
  static _ _ := by
    refine ⟨fun hlast => ?_, fun hlast => ?_⟩
    · rw [hname, if_pos hlast]
    · rw [hname, if_neg hlast]
  dynamic_iff := by
    rw [hp]
    exact iff_of_false (by decide) fun h => hcgi h.1

theorem Confined.of_dynamic (hdots : ¬ parentDir <:+: cstr uri) (hcgi : cgi <:+: cstr uri)
    {p : ParsedURI} {path args : List UInt8} (hp : p.isStatic = false)
    (hname : p.filename = publicDir ++ path) (hargs : p.cgiargs = some args)
    (hpath : questionMark ∉ path)
    (huri : cstr uri = path ∧ args = [] ∨ cstr uri = path ++ questionMark :: args) :
    Confined uri p where
  inside := by
    -- the path is the front of the uri
    have hprefix : path <+: cstr uri := by
      rcases huri with ⟨huri, -⟩ | huri
      · exact huri ▸ List.prefix_rfl
      · exact huri ▸ List.prefix_append _ _
    rw [hname]
    refine ⟨List.prefix_append _ _, parentDir_notInfix_publicDir fun hin => hdots ?_⟩
    exact hin.trans hprefix.isInfix
  dynamic _ := ⟨path, args, hargs, hpath, hname, huri⟩
  static h := by
    rw [hp] at h
    cases h
  dynamic_iff := iff_of_true hp ⟨hcgi, hdots⟩

end

/-- **Confinement and splitting.** For every uri that is not empty `requestParseURI` returns; the
file name lies in `./public/` and has no `".."`, a program is named by the uri up to its first
`?` and gets what follows as arguments, and a file is named by the whole uri. -/
theorem parseURI_confined (uri : List UInt8) (hne : cstr uri ≠ []) :
    ∃ p, requestParseURI uri = some p ∧ Confined uri p := by
  by_cases hdots : parentDir <:+: cstr uri
  · -- refused: the name is that of the home page, whatever the uri
    refine ⟨_, requestParseURI_of_parentDir hdots, ?_⟩
    exact
      { inside := by decide
        dynamic := fun h => by cases h
        static := fun _ hno => absurd hdots hno
        dynamic_iff := iff_of_false (by decide) fun h => h.2 hdots }
  · by_cases hcgi : cgi <:+: cstr uri
    · refine ⟨_, requestParseURI_of_dynamic hdots hcgi, ?_⟩
      -- with arguments or without
      cases hindex : index uri questionMark with
      | none =>
        exact Confined.of_dynamic hdots hcgi rfl rfl rfl (index_eq_none hindex) (Or.inl ⟨rfl, rfl⟩)
      | some q =>
        obtain ⟨path, args⟩ := q
        obtain ⟨huri, hpath⟩ := index_eq_some hindex
        exact Confined.of_dynamic hdots hcgi rfl rfl rfl hpath (Or.inr huri)
    · refine ⟨_, requestParseURI_of_static hdots hcgi hne, ?_⟩
      refine Confined.of_static hdots hcgi ?_ ?_
      · split <;> rfl
      · split <;> rfl

/-- The uri of a program with arguments. -/
theorem parseURI_confined_sample :
    ∃ p, requestParseURI (ascii "/output.cgi?1&2") = some p ∧
      Confined (ascii "/output.cgi?1&2") p :=
  parseURI_confined (ascii "/output.cgi?1&2") (by decide)

example : requestParseURI (ascii "/output.cgi?1&2") =
    some ⟨false, ascii "./public//output.cgi", some (ascii "1&2"),
      [ascii "1&2", ascii "./public//output.cgi"]⟩ := by decide

end Server
end OsHomework
