import DesignTokens.Text.Found
import DesignTokens.Toml.Scalar

/-!
# Reading TOML

The reader takes a text to the statements it consists of, and these build the table of the document.
Arrays and inline tables may be nested at most `maxDepth` deep, and a dotted key may have at most as
many parts. Arrays may run over several lines, inline tables may not.

Like the readers of JSON, each reader answers with what it found and a strictly shorter rest.
-/

namespace DesignTokens.Toml

open Text

/-- Why a text is not a TOML document. -/
inductive ReadError where
  | unexpectedEnd
  | unexpected (c : Char)
  | badEscape
  | badScalar (text : String)
  | tooDeep
  | conflict (c : Conflict)
  deriving DecidableEq, Repr

/-- The wording of a failure. -/
def ReadError.message : ReadError → String
  | .unexpectedEnd => "unexpected end of text"
  | .unexpected c => s!"unexpected character '{c}'"
  | .badEscape => "invalid escape in a string"
  | .badScalar text => s!"invalid value '{text}'"
  | .tooDeep => "nested too deeply"
  | .conflict c => "duplicate key '" ++ c.key ++ "'"

/-- The failure at the start of a text. -/
def unexpected (s : List Char) : ReadError :=
  match s with
  | [] => .unexpectedEnd
  | c :: _ => .unexpected c

/-- The most arrays and inline tables inside one another, and the most parts of a dotted key. -/
def maxDepth : Nat := 79

/-- The blanks within a line. -/
def isSpace (c : Char) : Bool := c = ' ' || c = '\t'

/-- The text after the blanks at its start. -/
def skipSpaces (s : List Char) : List Char := s.dropWhile isSpace

/-- The characters of comments and strings: all but control characters. -/
def isTextChar (c : Char) : Bool := c = '\t' || (0x20 ≤ c.toNat && c.toNat ≠ 0x7F)

/-- What follows the line break that a text starts with. -/
def afterBreak? (s : List Char) : Option (List Char) :=
  match s with
  | '\n' :: rest => some rest
  | '\r' :: '\n' :: rest => some rest
  | _ => none

theorem length_afterBreak? {s rest : List Char} (h : afterBreak? s = some rest) :
    rest.length < s.length := by
  unfold afterBreak? at h
  split at h <;> simp at h <;> subst h <;> simp only [List.length_cons] <;> omega

theorem length_skipSpaces_le (s : List Char) : (skipSpaces s).length ≤ s.length :=
  length_dropWhile_le isSpace s

theorem length_lt_of_skipSpaces {s rest : List Char} {c : Char} (h : skipSpaces s = c :: rest) :
    rest.length < s.length := by
  have hs := length_skipSpaces_le s
  rw [h, List.length_cons] at hs
  exact hs

/-- The text after the blanks, line breaks and, with `comments`, comments at its start. -/
def skipLines (comments : Bool) (s : List Char) : List Char :=
  match s with
  | [] => []
  | '\r' :: '\n' :: rest => skipLines comments rest
  | c :: rest =>
    if isSpace c || c = '\n' then skipLines comments rest
    else if comments && c = '#' then skipLines comments (rest.dropWhile isTextChar)
    else c :: rest
termination_by s.length
decreasing_by
  · simp only [List.length_cons]; omega
  · simp
  · have := length_dropWhile_le isTextChar rest
    simp only [List.length_cons]; omega

theorem length_skipLines_le (comments : Bool) (s : List Char) :
    (skipLines comments s).length ≤ s.length := by
  fun_induction skipLines comments s with
  | case1 => simp
  | case2 rest ih => simp only [List.length_cons]; omega
  | case3 c rest _ _ ih => simp only [List.length_cons]; omega
  | case4 c rest _ _ _ ih =>
    have := length_dropWhile_le isTextChar rest
    simp only [List.length_cons]; omega
  | case5 => simp

/-- What follows the rest of a line that holds nothing but blanks and a comment. -/
def afterLine? (s : List Char) : Option (List Char) :=
  let s := skipSpaces s
  let s :=
    match s with
    | '#' :: rest => rest.dropWhile isTextChar
    | _ => s
  if s.isEmpty then some [] else afterBreak? s

theorem length_afterLine? {s rest : List Char} (h : afterLine? s = some rest) (hn : s ≠ []) :
    rest.length < s.length := by
  have hs := length_skipSpaces_le s
  have hp := List.length_pos_iff.2 hn
  unfold afterLine? at h
  dsimp only at h
  split at h
  · split at h
    · obtain rfl := by simpa using h
      simpa using hp
    · rename_i inner hr _
      have := length_afterBreak? h
      have := length_dropWhile_le isTextChar inner
      simp only [hr, List.length_cons] at hs
      omega
  · split at h
    · obtain rfl := by simpa using h
      simpa using hp
    · have := length_afterBreak? h
      omega

theorem length_afterLine?_le {s rest : List Char} (h : afterLine? s = some rest) :
    rest.length ≤ s.length := by
  by_cases hn : s = []
  · subst hn
    obtain rfl : rest = [] := by simpa [afterLine?, skipSpaces, eq_comm] using h
    simp
  · exact Nat.le_of_lt (length_afterLine? h hn)

/-! ## Strings -/

/-- The character with a code point, unless there is none. -/
def scalarValue? (n : Nat) : Option Char :=
  if n.isValidChar then some (Char.ofNat n) else none

/-- The character of an escape with `width` digits; the text starts behind its letter. -/
def readCodePoint (width : Nat) (s : List Char) : Except ReadError (Char × List Char) :=
  let digits := s.take width
  if digits.length = width && digits.all isHexDigit then
    match scalarValue? (baseValue 16 digits) with
    | some c => .ok (c, s.drop width)
    | none => .error .badEscape
  else .error .badEscape

/-- The character of an escape; the text starts behind the backslash. -/
def readEscape (s : List Char) : Except ReadError (Char × List Char) :=
  match s with
  | 'b' :: rest => .ok ('\x08', rest)
  | 't' :: rest => .ok ('\t', rest)
  | 'n' :: rest => .ok ('\n', rest)
  | 'f' :: rest => .ok ('\x0c', rest)
  | 'r' :: rest => .ok ('\r', rest)
  | '"' :: rest => .ok ('"', rest)
  | '\\' :: rest => .ok ('\\', rest)
  | 'u' :: rest => readCodePoint 4 rest
  | 'U' :: rest => readCodePoint 8 rest
  | _ => .error .badEscape

theorem length_readEscape_le {s : List Char} {c : Char} {rest : List Char}
    (h : readEscape s = .ok (c, rest)) : rest.length ≤ s.length := by
  have code {width : Nat} {t : List Char} (h : readCodePoint width t = .ok (c, rest)) :
      rest.length ≤ t.length := by
    unfold readCodePoint at h
    dsimp only at h
    split at h
    · split at h
      · obtain ⟨_, rfl⟩ := by simpa using h
        simp
      · simp at h
    · simp at h
  unfold readEscape at h
  split at h
  case h_8 => exact Nat.le_succ_of_le (code h)
  case h_9 => exact Nat.le_succ_of_le (code h)
  case h_10 => simp at h
  all_goals
    obtain ⟨_, rfl⟩ := by simpa using h
    simp

/-- The characters of a string on one line up to its closing quote. -/
def readLineString (quote : Char) (s : List Char) : Except ReadError (Found (List Char) s) :=
  match s with
  | [] => .error .unexpectedEnd
  | c :: rest =>
    if c = quote then .ok ⟨[], rest, by simp⟩
    else if quote = '"' ∧ c = '\\' then
      match h : readEscape rest with
      | .error e => .error e
      | .ok (c, after) => do
        have hle := length_readEscape_le h
        let others ← readLineString quote after
        .ok ⟨c :: others.value, others.rest, by
          have := others.shorter; simp only [List.length_cons]; omega⟩
    else if isTextChar c then do
      let others ← readLineString quote rest
      .ok ⟨c :: others.value, others.rest, by
        have := others.shorter; simp only [List.length_cons]; omega⟩
    else .error (.unexpected c)
termination_by s.length
decreasing_by
  · have := length_readEscape_le h; simp only [List.length_cons]; omega
  · simp

/-- How many quotes at the start of a text belong to a string over several lines that ends there. -/
def closingQuotes? (quote : Char) (s : List Char) : Option Nat :=
  let run := (s.takeWhile (· = quote)).length
  if run < 3 then none else some (min (run - 3) 2)

/-- The characters of a string over several lines up to its closing quotes. -/
def readBlockString (quote : Char) (s : List Char) : Except ReadError (Found (List Char) s) :=
  match hs : s with
  | [] => .error .unexpectedEnd
  | c :: rest =>
    if hq : (closingQuotes? quote (c :: rest)).isSome then
      let quotes := (closingQuotes? quote (c :: rest)).get hq
      .ok ⟨List.replicate quotes quote, rest.drop (quotes + 2), by
        simp only [List.length_drop, List.length_cons]; omega⟩
    else if quote = '"' ∧ c = '\\' then
      match hb : afterBreak? (skipSpaces rest) with
      | some after => do
        have := length_skipLines_le false after
        have := length_afterBreak? hb
        have := length_skipSpaces_le rest
        let others ← readBlockString quote (skipLines false after)
        .ok ⟨others.value, others.rest, by
          have := others.shorter; simp only [List.length_cons]; omega⟩
      | none =>
        match h : readEscape rest with
        | .error e => .error e
        | .ok (c, after) => do
          have hle := length_readEscape_le h
          let others ← readBlockString quote after
          .ok ⟨c :: others.value, others.rest, by
            have := others.shorter; simp only [List.length_cons]; omega⟩
    else
      match hb : afterBreak? (c :: rest) with
      | some after => do
        have hlt := length_afterBreak? hb
        let others ← readBlockString quote after
        .ok ⟨'\n' :: others.value, others.rest, by
          have := others.shorter; omega⟩
      | none =>
        if isTextChar c then do
          let others ← readBlockString quote rest
          .ok ⟨c :: others.value, others.rest, by
            have := others.shorter; simp only [List.length_cons]; omega⟩
        else .error (.unexpected c)
termination_by s.length
decreasing_by
  · have := length_skipLines_le false after
    have := length_afterBreak? hb
    have := length_skipSpaces_le rest
    simp only [List.length_cons]; omega
  · have := length_readEscape_le h; simp only [List.length_cons]; omega
  · exact length_afterBreak? hb
  · simp

/-- The string whose first quote stands before a text. -/
def readString (quote : Char) (s : List Char) : Except ReadError (Found (List Char) s) :=
  match s with
  | a :: b :: rest =>
    if a = quote ∧ b = quote then
      match h : afterBreak? rest with
      | some body => do
        have hlt := length_afterBreak? h
        let found ← readBlockString quote body
        .ok ⟨found.value, found.rest, by
          have := found.shorter; simp only [List.length_cons]; omega⟩
      | none => do
        let found ← readBlockString quote rest
        .ok ⟨found.value, found.rest, by
          have := found.shorter; simp only [List.length_cons]; omega⟩
    else readLineString quote (a :: b :: rest)
  | s => readLineString quote s

/-! ## Keys -/

/-- The characters of a key without quotes. -/
def isBareChar (c : Char) : Bool := c.isAlphanum || c = '_' || c = '-'

/-- One part of a key. -/
def readKeyPart (s : List Char) : Except ReadError (Found String s) :=
  match s with
  | [] => .error .unexpectedEnd
  | c :: rest =>
    if c = '"' ∨ c = '\'' then do
      let found ← readLineString c rest
      .ok ⟨String.ofList found.value, found.rest, Nat.lt_succ_of_lt found.shorter⟩
    else if isBareChar c then
      .ok ⟨String.ofList (c :: rest.takeWhile isBareChar), rest.dropWhile isBareChar,
        Nat.lt_succ_of_le (length_dropWhile_le isBareChar rest)⟩
    else .error (.unexpected c)

/-- The parts of a dotted key, with the blanks around it. -/
def readKeyParts (s : List Char) : Except ReadError (Found (List String) s) := do
  have hs := length_skipSpaces_le s
  let part ← readKeyPart (skipSpaces s)
  have hp := part.shorter
  have hr := length_skipSpaces_le part.rest
  match h : skipSpaces part.rest with
  | '.' :: rest =>
    let others ← readKeyParts rest
    .ok ⟨part.value :: others.value, others.rest, by
      have := others.shorter; simp only [h, List.length_cons] at hr; omega⟩
  | rest => .ok ⟨[part.value], rest, by rw [h] at hr; omega⟩
termination_by s.length
decreasing_by simp only [h, List.length_cons] at hr; omega

/-- A dotted key of at most `maxDepth` parts. -/
def readKey (s : List Char) : Except ReadError (Found (List String) s) := do
  let keys ← readKeyParts s
  if maxDepth < keys.value.length then .error .tooDeep else .ok keys

/-! ## Values -/

/-- The table of the pairs of an inline table. -/
def inlineTable (pairs : List (List String × Value)) : Except ReadError Value :=
  match pairs.foldlM (fun (table : Table) (keys, value) => table.assign keys value) [] with
  | .ok table => .ok (.table (toValues table))
  | .error c => .error (.conflict c)

mutual

/-- A value at the start of a text, in which containers may be nested `depth` deep. -/
def readValue (depth : Nat) (s : List Char) : Except ReadError (Found Value s) :=
  match s with
  | [] => .error .unexpectedEnd
  | c :: rest =>
    if c = '"' ∨ c = '\'' then do
      let found ← readString c rest
      .ok ⟨.string (String.ofList found.value), found.rest, Nat.lt_succ_of_lt found.shorter⟩
    else if c = '[' then
      match depth with
      | 0 => .error .tooDeep
      | depth + 1 => do
        let items ← readItems depth rest
        .ok ⟨.array items.value, items.rest, Nat.lt_succ_of_lt items.shorter⟩
    else if c = '{' then
      match depth with
      | 0 => .error .tooDeep
      | depth + 1 =>
        match hr : skipSpaces rest with
        | '}' :: after => .ok ⟨.table [], after, Nat.lt_succ_of_lt (length_lt_of_skipSpaces hr)⟩
        | _ => do
          let pairs ← readPairs depth rest
          let table ← inlineTable pairs.value
          .ok ⟨table, pairs.rest, Nat.lt_succ_of_lt pairs.shorter⟩
    else
      match afterStart? "true".toList s, afterStart? "false".toList s with
      | some _, _ => .ok ⟨.boolean true, rest.drop 3, length_drop_lt c rest 3⟩
      | _, some _ => .ok ⟨.boolean false, rest.drop 4, length_drop_lt c rest 4⟩
      | none, none =>
        let length := scalarLength s
        if length = 0 then .error (.unexpected c)
        else
          match scalar? (s.take length) with
          | some value =>
            .ok ⟨value, rest.drop (length - 1), length_drop_lt c rest (length - 1)⟩
          | none => .error (.badScalar (String.ofList (s.take length)))
termination_by (s.length, 0)
decreasing_by all_goals exact Prod.Lex.left _ _ (by simp)

/-- The items of an array up to its closing bracket, before which a comma may stand. -/
def readItems (depth : Nat) (s : List Char) : Except ReadError (Found (List Value) s) :=
  have hs := length_skipLines_le true s
  match h : skipLines true s with
  | ']' :: rest => .ok ⟨[], rest, by simp only [h, List.length_cons] at hs; omega⟩
  | c :: more => do
    let item ← readValue depth (c :: more)
    have hi := item.shorter
    have hr := length_skipLines_le true item.rest
    match hn : skipLines true item.rest with
    | ',' :: rest =>
      let items ← readItems depth rest
      .ok ⟨item.value :: items.value, items.rest, by
        have := items.shorter
        simp only [h, hn, List.length_cons] at hs hi hr; omega⟩
    | ']' :: rest =>
      .ok ⟨[item.value], rest, by simp only [h, hn, List.length_cons] at hs hi hr; omega⟩
    | rest => .error (unexpected rest)
  | [] => .error .unexpectedEnd
termination_by (s.length, 1)
decreasing_by
  · rw [h] at hs
    by_cases he : (c :: more).length = s.length
    · rw [he]; exact Prod.Lex.right _ (by omega)
    · exact Prod.Lex.left _ _ (by omega)
  · simp only [h, hn, List.length_cons] at hs hi hr
    exact Prod.Lex.left _ _ (by omega)

/-- The pairs of an inline table up to its closing brace; there is at least one. -/
def readPairs (depth : Nat) (s : List Char) :
    Except ReadError (Found (List (List String × Value)) s) := do
  let key ← readKey s
  have hk := key.shorter
  match he : key.rest with
  | '=' :: rest =>
    have hv := length_skipSpaces_le rest
    let value ← readValue depth (skipSpaces rest)
    have hs := value.shorter
    have hr := length_skipSpaces_le value.rest
    match hn : skipSpaces value.rest with
    | ',' :: rest =>
      let pairs ← readPairs depth rest
      .ok ⟨(key.value, value.value) :: pairs.value, pairs.rest, by
        have := pairs.shorter
        simp only [he, hn, List.length_cons] at hk hr; omega⟩
    | '}' :: rest =>
      .ok ⟨[(key.value, value.value)], rest, by
        simp only [he, hn, List.length_cons] at hk hr; omega⟩
    | rest => .error (unexpected rest)
  | rest => .error (unexpected rest)
termination_by (s.length, 1)
decreasing_by
  · simp only [he, List.length_cons] at hk
    exact Prod.Lex.left _ _ (by omega)
  · simp only [he, hn, List.length_cons] at hk hr
    exact Prod.Lex.left _ _ (by omega)

end

/-! ## Documents -/

/-- What follows the rest of a line, at the end of a statement. -/
def endStatement {α : Type} {s : List Char} (value : α) (rest : List Char)
    (shorter : rest.length < s.length) : Except ReadError (Found α s) :=
  match h : afterLine? rest with
  | some after => .ok ⟨value, after, by have := length_afterLine?_le h; omega⟩
  | none => .error (unexpected (skipSpaces rest))

/-- A statement at the start of a text, with the rest of its line. -/
def readStatement (s : List Char) : Except ReadError (Found Statement s) :=
  match hs : s with
  | '[' :: '[' :: rest => do
    let key ← readKey rest
    have hk := key.shorter
    match he : key.rest with
    | ']' :: ']' :: rest =>
      endStatement (.header key.value true) rest (by
        simp only [he, List.length_cons] at hk ⊢; omega)
    | rest => .error (unexpected rest)
  | '[' :: rest => do
    let key ← readKey rest
    have hk := key.shorter
    match he : key.rest with
    | ']' :: rest =>
      endStatement (.header key.value false) rest (by
        simp only [he, List.length_cons] at hk ⊢; omega)
    | rest => .error (unexpected rest)
  | s => do
    let key ← readKey s
    have hk := key.shorter
    match he : key.rest with
    | '=' :: rest =>
      have hv := length_skipSpaces_le rest
      let value ← readValue maxDepth (skipSpaces rest)
      have := value.shorter
      endStatement (.assign key.value value.value) value.rest (by
        simp only [he, List.length_cons] at hk; omega)
    | rest => .error (unexpected rest)

/-- The statements of a text. -/
def readStatements (s : List Char) : Except ReadError (List Statement) :=
  have _hs := length_skipSpaces_le s
  match _h : skipSpaces s with
  | [] => .ok []
  | c :: rest =>
    if c = '#' ∨ c = '\n' ∨ c = '\r' then
      match _ha : afterLine? (c :: rest) with
      | some after => readStatements after
      | none => .error (.unexpected c)
    else do
      let statement ← readStatement (c :: rest)
      have := statement.shorter
      let statements ← readStatements statement.rest
      .ok (statement.value :: statements)
termination_by s.length
decreasing_by
  · have := length_afterLine? _ha (by simp)
    rw [_h] at _hs
    omega
  · rw [_h] at _hs
    omega

/-- The table of a whole text; a byte order mark may stand before it. -/
def parse (text : String) : Except ReadError (KeyedList Value) := do
  let s :=
    match text.toList with
    | '\uFEFF' :: rest => rest
    | s => s
  let statements ← readStatements s
  match build [] [] statements with
  | .ok table => .ok (toValues table)
  | .error c => .error (.conflict c)

end DesignTokens.Toml
