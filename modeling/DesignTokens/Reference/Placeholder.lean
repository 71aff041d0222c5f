import DesignTokens.Text.Basic

/-!
# Placeholders

A placeholder is a path between braces: segments joined by single dots, where a segment is not empty
and holds no brace, parenthesis, comma, colon or blank. An object literal always holds a colon, so it
is never taken for a placeholder.

A text is read as a template: the placeholders in it and the stretches of text between them, which
together spell the text again. Placeholders cannot overlap, since there is no brace inside one.
-/

namespace DesignTokens.Reference

open Text

/-- The characters of a path segment. -/
def isSegmentChar (c : Char) : Bool :=
  !(c = '{' || c = '}' || c = '(' || c = ')' || c = ',' || c = ':' || c = '.' || isBlank c)

/-- Whether a text is a path: segments that are not empty, joined by dots. -/
def isPath (s : List Char) : Bool :=
  (splitAt '.' s).all fun segment => !segment.isEmpty && segment.all isSegmentChar

/-- The characters up to the first closing brace and what follows it, if no other brace, parenthesis,
comma, colon or blank comes first. -/
def closeBrace? : List Char → Option (List Char × List Char)
  | [] => none
  | c :: rest =>
    if c = '}' then some ([], rest)
    else if isSegmentChar c || c = '.' then
      (closeBrace? rest).map fun (path, after) => (c :: path, after)
    else none

/-- The path of the placeholder that starts a text behind its opening brace, and what follows it. -/
def openPlaceholder? (s : List Char) : Option (List Char × List Char) :=
  match closeBrace? s with
  | some (path, after) => if isPath path then some (path, after) else none
  | none => none

theorem eq_of_closeBrace? {s path after : List Char} (h : closeBrace? s = some (path, after)) :
    s = path ++ '}' :: after := by
  induction s generalizing path with
  | nil => simp [closeBrace?] at h
  | cons c rest ih =>
    unfold closeBrace? at h
    split at h
    · rename_i hc
      obtain ⟨rfl, rfl⟩ := by simpa using h
      simp [hc]
    · split at h
      · obtain ⟨⟨p, a⟩, hb, he⟩ := Option.map_eq_some_iff.1 h
        obtain ⟨rfl, rfl⟩ := by simpa using he
        simp [ih hb]
      · simp at h

theorem eq_of_openPlaceholder? {s path after : List Char}
    (h : openPlaceholder? s = some (path, after)) : s = path ++ '}' :: after := by
  unfold openPlaceholder? at h
  split at h
  · rename_i hb
    split at h
    · obtain ⟨rfl, rfl⟩ := by simpa using h
      exact eq_of_closeBrace? hb
    · simp at h
  · simp at h

theorem length_openPlaceholder? {s path after : List Char}
    (h : openPlaceholder? s = some (path, after)) : after.length < s.length := by
  rw [eq_of_openPlaceholder? h]
  simp only [List.length_append, List.length_cons]
  omega

/-- A part of a template. -/
inductive Part where
  /-- A character that belongs to no placeholder. -/
  | char (c : Char)
  /-- The placeholder of a path. -/
  | placeholder (path : String)
  deriving DecidableEq, Repr

/-- A placeholder as it is written. -/
def placeholderText (path : String) : String := "\x7b" ++ path ++ "\x7d"

/-- The text of a part. -/
def Part.text : Part → String
  | .char c => String.singleton c
  | .placeholder path => placeholderText path

/-- The parts of a text, in order. -/
def scan (s : List Char) : List Part :=
  match s with
  | [] => []
  | c :: rest =>
    if c = '{' then
      match _h : openPlaceholder? rest with
      | some (path, after) => .placeholder (String.ofList path) :: scan after
      | none => .char c :: scan rest
    else .char c :: scan rest
termination_by s.length
decreasing_by
  · have := length_openPlaceholder? _h
    simp only [List.length_cons]
    omega
  all_goals simp

/-- The parts of a text, in order. -/
def template (text : String) : List Part := scan text.toList

/-- The parts of a text spell it. -/
theorem flatMap_text_scan (s : List Char) : (scan s).flatMap (·.text.toList) = s := by
  have char (c : Char) : (Part.char c).text.toList = [c] := by simp [Part.text]
  have placeholder (path : List Char) :
      (Part.placeholder (String.ofList path)).text.toList = '{' :: path ++ ['}'] := by
    simp [Part.text, placeholderText]
  fun_induction scan s with
  | case1 => rfl
  | case2 rest path after h ih =>
    simp [placeholder, ih, eq_of_openPlaceholder? h]
  | case3 rest _ ih => simp [char, ih]
  | case4 c rest _ ih => simp [char, ih]

/-- The paths of the placeholders in a text, in order. -/
def find (text : String) : List String :=
  (template text).filterMap fun
    | .char _ => none
    | .placeholder path => some path

/-- Whether a text holds a placeholder. -/
def occursIn (text : String) : Bool := !(find text).isEmpty

/-- The path of a text that is one placeholder and nothing else, blanks around it apart. -/
def single? (text : String) : Option String :=
  match scan (trim text.toList) with
  | [.placeholder path] => some path
  | _ => none

end DesignTokens.Reference
