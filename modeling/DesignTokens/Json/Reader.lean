import DesignTokens.Decimal.Numeral
import DesignTokens.Json.Basic
import DesignTokens.Text.Found

/-!
# Reading JSON

The reader accepts exactly RFC 8259: no byte order mark, no comma before a closing bracket, no text
after the value. Lone surrogate escapes and raw control characters are refused, and containers may
be nested at most 127 deep. Of entries with one key the last counts.

Each reader is given a text and answers with what it found and the strictly shorter rest, which is
why reading ends.
-/

namespace DesignTokens.Json

open Text

/-- Why a text is not a JSON value. -/
inductive ReadError where
  | unexpectedEnd
  | unexpected (c : Char)
  | badNumber (text : String)
  | numberOutOfRange (text : String)
  | badEscape
  | controlCharacter
  | tooDeep
  deriving DecidableEq, Repr

/-- The wording of a failure. -/
def ReadError.message : ReadError → String
  | .unexpectedEnd => "unexpected end of text"
  | .unexpected c => s!"unexpected character '{c}'"
  | .badNumber text => s!"'{text}' is not a number"
  | .numberOutOfRange text => s!"number '{text}' is out of range"
  | .badEscape => "invalid escape in a string"
  | .controlCharacter => "control character in a string"
  | .tooDeep => "nested too deeply"

/-- The most arrays and objects that may stand inside one another. -/
def maxDepth : Nat := 127

/-- The characters that JSON allows between tokens. -/
def isSpace (c : Char) : Bool := c = ' ' || c = '\n' || c = '\t' || c = '\r'

/-- The text after the white space at its start. -/
def skip (s : List Char) : List Char := s.dropWhile isSpace

theorem length_skip_le (s : List Char) : (skip s).length ≤ s.length :=
  length_dropWhile_le isSpace s

/-- The sixteen-bit unit written by four digits of base sixteen. -/
def hexUnit? (a b c d : Char) : Option Nat :=
  if [a, b, c, d].all isHexDigit then
    some (hexValue a * 4096 + hexValue b * 256 + hexValue c * 16 + hexValue d)
  else none

/-- The character of an escape with one letter. -/
def letterEscape? : Char → Option Char
  | '"' => some '"'
  | '\\' => some '\\'
  | '/' => some '/'
  | 'b' => some '\x08'
  | 'f' => some '\x0c'
  | 'n' => some '\n'
  | 'r' => some '\r'
  | 't' => some '\t'
  | _ => none

/-- A character of a string or its escape; the text starts behind the opening quote. -/
def readCharacter (s : List Char) : Except ReadError (Found Char s) :=
  match s with
  | [] => .error .unexpectedEnd
  | '\\' :: 'u' :: a :: b :: c :: d :: rest =>
    match hexUnit? a b c d with
    | none => .error .badEscape
    | some high =>
      if 0xDC00 ≤ high ∧ high < 0xE000 then .error .badEscape
      else if 0xD800 ≤ high ∧ high < 0xDC00 then
        match rest with
        | '\\' :: 'u' :: e :: f :: g :: h :: rest =>
          match hexUnit? e f g h with
          | none => .error .badEscape
          | some low =>
            if 0xDC00 ≤ low ∧ low < 0xE000 then
              .ok ⟨Char.ofNat (0x10000 + (high - 0xD800) * 0x400 + (low - 0xDC00)), rest,
                by simp only [List.length_cons]; omega⟩
            else .error .badEscape
        | _ => .error .badEscape
      else .ok ⟨Char.ofNat high, rest, by simp only [List.length_cons]; omega⟩
  | '\\' :: c :: rest =>
    match letterEscape? c with
    | none => .error .badEscape
    | some c => .ok ⟨c, rest, by simp only [List.length_cons]; omega⟩
  | c :: rest =>
    if c = '\\' then .error .unexpectedEnd
    else if c.toNat < 0x20 then .error .controlCharacter
    else .ok ⟨c, rest, by simp⟩

/-- The characters of a string up to its closing quote; the text starts behind the opening quote. -/
def readString (s : List Char) : Except ReadError (Found (List Char) s) :=
  match hs : s with
  | '"' :: rest => .ok ⟨[], rest, by simp⟩
  | s => do
    let first ← readCharacter s
    let others ← readString first.rest
    .ok ⟨first.value :: others.value, others.rest,
      Nat.lt_trans others.shorter first.shorter⟩
termination_by s.length
decreasing_by subst hs; exact first.shorter

/-- The characters that occur in numbers. -/
def isNumberChar (c : Char) : Bool :=
  c.isDigit || c = '-' || c = '+' || c = '.' || c = 'e' || c = 'E'

/-- The digits of a significand as far as they fit into sixty-four bits, and the number of digits
that were left off behind them. -/
def takeSignificand (digits : List Char) (start : Nat) : Nat × Nat :=
  match digits with
  | [] => (start, 0)
  | c :: rest =>
    let next := start * 10 + (c.toNat - 48)
    if Nat.pow 2 64 ≤ next then (start, digits.length) else takeSignificand rest next

/-- The double `significand * 10 ^ exponent`, computed by one product or quotient with a power of ten;
very small numbers are first divided by `10 ^ 308`. Nothing when the result is not finite. -/
def scaleByPower (significand : Float) (exponent : Int) : Option Float :=
  let power (n : Nat) : Float := Float.ofScientific 1 false n
  if 0 ≤ exponent then
    if exponent ≤ 308 then
      let x := significand * power exponent.toNat
      if x.isInf then none else some x
    else if significand == 0 then some significand else none
  else if -308 ≤ exponent then some (significand / power (-exponent).toNat)
  else if -616 ≤ exponent then
    some (significand / power 308 / power (-exponent - 308).toNat)
  else some 0

/-- The number that a text made of the characters of numbers writes. -/
def readNumber (text : List Char) : Except ReadError Number :=
  let bad : Except ReadError Number := .error (.badNumber (String.ofList text))
  let (negative, s) :=
    match text with
    | '-' :: rest => (true, rest)
    | _ => (false, text)
  let (whole, s) := cutWhile isDigit s
  if whole.isEmpty || (whole.head? = some '0' && 1 < whole.length) then bad
  else
    let (fraction, s, pointed) :=
      match s with
      | '.' :: rest => let (fraction, rest) := cutWhile isDigit rest; (fraction, rest, true)
      | _ => ([], s, false)
    if pointed && fraction.isEmpty then bad
    else
      let (exponent, s, scaled) :=
        match s with
        | c :: rest =>
          if c = 'e' || c = 'E' then
            let (minus, rest) := Decimal.takeSign rest
            let (digits, rest) := cutWhile isDigit rest
            let value : Int := Decimal.digitsValue digits
            (if digits.isEmpty then none else some (if minus then -value else value), rest, true)
          else (none, s, false)
        | [] => (none, [], false)
      if !s.isEmpty || (scaled && exponent.isNone) then bad
      else
        let (significand, left) := takeSignificand whole 0
        if !pointed && !scaled && left == 0 then
          if negative then
            if significand = 0 ∨ Nat.pow 2 63 < significand then
              .ok (.real (-(Float.ofNat significand)))
            else .ok (.integer (-significand))
          else .ok (.integer significand)
        else
          let (significand, leftAfter) := takeSignificand fraction significand
          let places := fraction.length - leftAfter
          let exponent := exponent.getD 0 + left - places
          match scaleByPower (Float.ofNat significand) exponent with
          | some x => .ok (.real (if negative then -x else x))
          | none => .error (.numberOutOfRange (String.ofList text))

mutual

/-- A value at the start of a text, in which containers may be nested `depth` deep. -/
def readValue (depth : Nat) (s : List Char) : Except ReadError (Found Json s) :=
  have start := length_skip_le s
  match hs : skip s with
  | [] => .error .unexpectedEnd
  | 'n' :: 'u' :: 'l' :: 'l' :: rest =>
    .ok ⟨.null, rest, by simp only [hs, List.length_cons] at start; omega⟩
  | 't' :: 'r' :: 'u' :: 'e' :: rest =>
    .ok ⟨.bool true, rest, by simp only [hs, List.length_cons] at start; omega⟩
  | 'f' :: 'a' :: 'l' :: 's' :: 'e' :: rest =>
    .ok ⟨.bool false, rest, by simp only [hs, List.length_cons] at start; omega⟩
  | '"' :: rest => do
    let text ← readString rest
    .ok ⟨.string (String.ofList text.value), text.rest, by
      have := text.shorter; simp only [hs, List.length_cons] at start; omega⟩
  | '[' :: rest =>
    match depth with
    | 0 => .error .tooDeep
    | depth + 1 =>
      have inner := length_skip_le rest
      match hr : skip rest with
      | ']' :: rest' =>
        .ok ⟨.array [], rest', by
          simp only [hs, hr, List.length_cons] at start inner; omega⟩
      | _ => do
        let items ← readItems depth rest
        .ok ⟨.array items.value, items.rest, by
          have := items.shorter; simp only [hs, List.length_cons] at start; omega⟩
  | '{' :: rest =>
    match depth with
    | 0 => .error .tooDeep
    | depth + 1 =>
      have inner := length_skip_le rest
      match hr : skip rest with
      | '}' :: rest' =>
        .ok ⟨.object [], rest', by
          simp only [hs, hr, List.length_cons] at start inner; omega⟩
      | _ => do
        let entries ← readEntries depth rest
        .ok ⟨.object (KeyedList.ofList entries.value), entries.rest, by
          have := entries.shorter; simp only [hs, List.length_cons] at start; omega⟩
  | c :: rest =>
    if c = '-' || isDigit c then do
      let n ← readNumber (c :: rest.takeWhile isNumberChar)
      .ok ⟨.number n, rest.dropWhile isNumberChar, by
        have := length_dropWhile_le isNumberChar rest
        simp only [hs, List.length_cons] at start; omega⟩
    else .error (.unexpected c)
termination_by (s.length, 0)
decreasing_by all_goals simp only [hs, List.length_cons] at start; exact Prod.Lex.left _ _ (by omega)

/-- The items of an array up to its closing bracket; there is at least one. -/
def readItems (depth : Nat) (s : List Char) : Except ReadError (Found (List Json) s) := do
  let item ← readValue depth s
  have after := length_skip_le item.rest
  have := item.shorter
  match hr : skip item.rest with
  | ',' :: rest =>
    let items ← readItems depth rest
    .ok ⟨item.value :: items.value, items.rest, by
      have := items.shorter; simp only [hr, List.length_cons] at after; omega⟩
  | ']' :: rest =>
    .ok ⟨[item.value], rest, by simp only [hr, List.length_cons] at after; omega⟩
  | c :: _ => .error (.unexpected c)
  | [] => .error .unexpectedEnd
termination_by (s.length, 1)
decreasing_by
  · exact Prod.Lex.right _ (by omega)
  · simp only [hr, List.length_cons] at after; exact Prod.Lex.left _ _ (by omega)

/-- The entries of an object up to its closing brace; there is at least one. -/
def readEntries (depth : Nat) (s : List Char) :
    Except ReadError (Found (List (String × Json)) s) :=
  have start := length_skip_le s
  match hs : skip s with
  | '"' :: rest => do
    let key ← readString rest
    have keyed := length_skip_le key.rest
    have := key.shorter
    match hk : skip key.rest with
    | ':' :: rest =>
      let value ← readValue depth rest
      have after := length_skip_le value.rest
      have := value.shorter
      let entry := (String.ofList key.value, value.value)
      match hr : skip value.rest with
      | ',' :: rest =>
        let entries ← readEntries depth rest
        .ok ⟨entry :: entries.value, entries.rest, by
          have := entries.shorter
          simp only [hs, hk, hr, List.length_cons] at start keyed after; omega⟩
      | '}' :: rest =>
        .ok ⟨[entry], rest, by
          simp only [hs, hk, hr, List.length_cons] at start keyed after; omega⟩
      | c :: _ => .error (.unexpected c)
      | [] => .error .unexpectedEnd
    | c :: _ => .error (.unexpected c)
    | [] => .error .unexpectedEnd
  | c :: _ => .error (.unexpected c)
  | [] => .error .unexpectedEnd
termination_by (s.length, 1)
decreasing_by
  · simp only [hs, hk, List.length_cons] at start keyed; exact Prod.Lex.left _ _ (by omega)
  · simp only [hs, hk, hr, List.length_cons] at start keyed after
    exact Prod.Lex.left _ _ (by omega)

end

/-- The value that a whole text writes. -/
def parse (text : String) : Except ReadError Json := do
  let value ← readValue maxDepth text.toList
  match skip value.rest with
  | [] => .ok value.value
  | c :: _ => .error (.unexpected c)

end DesignTokens.Json
