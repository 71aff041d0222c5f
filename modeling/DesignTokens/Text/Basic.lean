/-!
# Characters and runs of text

Scanners in this library work on lists of characters, and the text around them is a `String`. This
module holds the cuts that every format here shares: which characters are blank, trimming, words,
cutting at a character, and taking off a pair of quotes.

Blank means the Unicode property `White_Space`; letter case is folded for ASCII letters only.
-/

namespace DesignTokens.Text

/-- The twenty-five characters with the Unicode property `White_Space`. -/
def isBlank (c : Char) : Bool :=
  let n := c.toNat
  (9 ≤ n && n ≤ 13) || n == 0x20 || n == 0x85 || n == 0xA0 || n == 0x1680 ||
    (0x2000 ≤ n && n ≤ 0x200A) || n == 0x2028 || n == 0x2029 || n == 0x202F ||
    n == 0x205F || n == 0x3000

/-- The letters `a` to `z` in either case. -/
def isLetter (c : Char) : Bool := c.isAlpha

/-- The digits `0` to `9`. -/
def isDigit (c : Char) : Bool := c.isDigit

/-- The digits of base sixteen, in either case. -/
def isHexDigit (c : Char) : Bool :=
  c.isDigit || ('a' ≤ c && c ≤ 'f') || ('A' ≤ c && c ≤ 'F')

/-- The value of a digit in base sixteen; `0` for any other character. -/
def hexValue (c : Char) : Nat :=
  if c.isDigit then c.toNat - 48
  else if 'a' ≤ c && c ≤ 'f' then c.toNat - 87
  else if 'A' ≤ c && c ≤ 'F' then c.toNat - 55
  else 0

/-- The text without the blanks at its start. -/
def trimStart (s : List Char) : List Char := s.dropWhile isBlank

/-- The text without the blanks at its end. -/
def trimEnd (s : List Char) : List Char := (s.reverse.dropWhile isBlank).reverse

/-- The text without the blanks at either end. -/
def trim (s : List Char) : List Char := trimEnd (trimStart s)

/-- The text without its last characters that satisfy `p`. -/
def dropEndWhile (p : Char → Bool) (s : List Char) : List Char :=
  (s.reverse.dropWhile p).reverse

/-- The longest start of a text in which every character satisfies `p`, and the rest. -/
def cutWhile (p : Char → Bool) (s : List Char) : List Char × List Char :=
  (s.takeWhile p, s.dropWhile p)

/-- The two sides of the first `c`, or nothing when there is none. -/
def cut? (c : Char) : List Char → Option (List Char × List Char)
  | [] => none
  | d :: rest =>
    if d = c then some ([], rest)
    else (cut? c rest).map fun (left, right) => (d :: left, right)

/-- The pieces between the occurrences of `c`; there is always at least one. -/
def splitAt (c : Char) : List Char → List (List Char)
  | [] => [[]]
  | d :: rest =>
    if d = c then [] :: splitAt c rest
    else
      match splitAt c rest with
      | [] => [[d]]
      | piece :: pieces => (d :: piece) :: pieces

/-- The maximal runs of characters that are not blank. -/
def words (s : List Char) : List (List Char) :=
  go s []
where
  /-- Reads on with the characters of the current word, last one first. -/
  go : List Char → List Char → List (List Char)
    | [], [] => []
    | [], word => [word.reverse]
    | c :: rest, word =>
      if isBlank c then
        match word with
        | [] => go rest []
        | _ => word.reverse :: go rest []
      else go rest (c :: word)

/-- What follows `start` in a text that begins with it. -/
def afterStart? : (start s : List Char) → Option (List Char)
  | [], s => some s
  | _ :: _, [] => none
  | a :: start, b :: s => if a = b then afterStart? start s else none

/-- What comes before `c` in a text that ends with it. -/
def beforeLast? (c : Char) (s : List Char) : Option (List Char) :=
  match s.reverse with
  | [] => none
  | d :: rest => if d = c then some rest.reverse else none

/-- The trimmed text, and of a text between two equal quotes what stands between them. -/
def unquote (s : List Char) : List Char :=
  let s := trim s
  match s with
  | open' :: rest@(_ :: _) =>
    if (open' = '\'' || open' = '"') && rest.getLast? = some open' then rest.dropLast else s
  | _ => s

/-- Equality of texts up to the case of ASCII letters. -/
def sameLetters (a b : String) : Bool := a.toLower == b.toLower

/-- `trim` on strings. -/
def trimmed (s : String) : String := String.ofList (trim s.toList)

/-- `unquote` on strings. -/
def unquoted (s : String) : String := String.ofList (unquote s.toList)

end DesignTokens.Text
