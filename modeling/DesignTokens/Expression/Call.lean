import DesignTokens.Expression.Nesting

/-!
# Function calls

A call is a name, an opening parenthesis, a body and the parenthesis that matches the first one at the
very end, with blanks allowed around the whole. Reading a call only cuts text: arguments that are
calls themselves come back as they are written.

`Expression.parse` reads all levels of a text at once: a literal, or a call of expressions. Every
argument is shorter than the call around it, so reading ends, and evaluating an expression is a
recursion on the tree.
-/

namespace DesignTokens

open Text

/-- A call: the name of a function and the texts of its arguments. -/
structure Call where
  name : String
  arguments : List String
  deriving DecidableEq, Repr

namespace Call

/-- The characters a function name may start with. -/
def isNameStart (c : Char) : Bool := c.isAlpha || c = '_'

/-- The characters a function name may go on with. -/
def isNameChar (c : Char) : Bool := c.isAlphanum || c = '_' || c = '-'

/-- Whether a whole text is a function name. -/
def isName (s : List Char) : Bool :=
  match s with
  | [] => false
  | c :: rest => isNameStart c && rest.all isNameChar

/-- The name and the body of a text that is one call from its first character to its last. -/
def span? (s : List Char) : Option (List Char × List Char) :=
  let name := s.takeWhile isNameChar
  match s.dropWhile isNameChar with
  | '(' :: rest =>
    match Expression.closeParen ⟨1, 0, none⟩ rest with
    | some (body, []) => if isName name then some (name, body) else none
    | _ => none
  | _ => none

/-- The name of a call and the texts of its arguments. -/
def split? (s : List Char) : Option (List Char × List (List Char)) :=
  (span? (trim s)).map fun (name, body) => (name, Expression.splitArguments body)

/-- The call that a text is. -/
def parse? (text : String) : Option Call :=
  (split? text.toList).map fun (name, args) =>
    ⟨String.ofList name, args.map String.ofList⟩

/-- The canonical text of a call. -/
def signature (c : Call) : String := c.name ++ "(" ++ ", ".intercalate c.arguments ++ ")"

end Call

/-- Whether a text is a call. -/
def isCall (text : String) : Bool := (Call.span? (trim text.toList)).isSome

/-- Behind the name of a call, the first parenthesis closes at the end of the text. -/
theorem Call.exists_closed_of_span? {s name body : List Char}
    (h : Call.span? s = some (name, body)) :
    ∃ rest, s = name ++ '(' :: rest ∧
      Expression.closeParen ⟨1, 0, none⟩ rest = some (body, []) ∧ Call.isName name = true := by
  have cut := List.takeWhile_append_dropWhile (p := Call.isNameChar) (l := s)
  unfold Call.span? at h
  dsimp only at h
  split at h
  · rename_i rest hr
    split at h
    · rename_i hb
      split at h
      · rename_i hn
        obtain ⟨rfl, rfl⟩ := by simpa using h
        rw [hr] at cut
        exact ⟨rest, cut.symm, hb, hn⟩
      · simp at h
    · simp at h
  · simp at h

/-- A call is a name and a body between parentheses. -/
theorem Call.eq_of_span? {s name body : List Char} (h : Call.span? s = some (name, body)) :
    s = name ++ '(' :: body ++ [')'] ∧ Call.isName name = true := by
  obtain ⟨rest, rfl, closed, named⟩ := Call.exists_closed_of_span? h
  refine ⟨?_, named⟩
  rw [Expression.eq_of_closeParen closed, List.append_assoc]
  rfl

theorem Call.length_span? {s name body : List Char} (h : Call.span? s = some (name, body)) :
    body.length < s.length := by
  obtain ⟨rfl, -⟩ := Call.eq_of_span? h
  simp only [List.length_append, List.length_cons]
  omega

theorem Call.length_of_mem_split? {s name : List Char} {args : List (List Char)}
    (h : Call.split? s = some (name, args)) {arg : List Char} (ha : arg ∈ args) :
    arg.length < s.length := by
  obtain ⟨⟨n, body⟩, hb, he⟩ := Option.map_eq_some_iff.1 h
  obtain ⟨rfl, rfl⟩ := by simpa using he
  have h₁ := Call.length_span? hb
  have h₂ := Expression.length_trim_le s
  have h₃ := Expression.length_le_of_mem_splitArguments ha
  omega

/-- A text read at all levels. -/
inductive Expression where
  /-- A text that is not a call. -/
  | literal (text : String)
  /-- A call, with its text as it was written. -/
  | call (source : String) (name : String) (arguments : List Expression)

namespace Expression

/-- The text an expression was read from. -/
def source : Expression → String
  | .literal text => text
  | .call text _ _ => text

/-- The expression that a text writes. -/
def ofChars (s : List Char) : Expression :=
  match _h : Call.split? s with
  | none => .literal (String.ofList s)
  | some (name, args) =>
    .call (String.ofList s) (String.ofList name) (args.attach.map fun ⟨arg, _⟩ => ofChars arg)
termination_by s.length
decreasing_by exact Call.length_of_mem_split? _h ‹_›

/-- The expression that a text writes. -/
def parse (text : String) : Expression := ofChars text.toList

end Expression

end DesignTokens
