import DesignTokens.Color.Oklab
import DesignTokens.Decimal.Numeral
import DesignTokens.KeyedList

/-!
# Color notations

A color is written in hexadecimal digits, as `rgb(...)` or `rgba(...)`, as `hsl(...)` or `hsla(...)`,
or by its name, with letters in any case and with quotes or blanks around it. The components of a
functional notation are separated by commas or by blanks. The opacity is a fourth component or stands
behind a slash. Whatever the components are, the color that is read has its channels in range.
-/

namespace DesignTokens.Color

open Text

/-- The text between the parentheses of a function with one of the given names. -/
def body? (names : List String) (s : List Char) : Option (List Char) :=
  names.findSome? fun name => do
    let rest ← afterStart? name.toList s
    let rest ← afterStart? ['('] (trimStart rest)
    beforeLast? ')' rest

/-- The three components of a functional notation and the text of its opacity. -/
structure Components where
  first : List Char
  second : List Char
  third : List Char
  alpha : Option (List Char)
  deriving DecidableEq, Repr

/-- The components in the text between the parentheses. -/
def components? (body : List Char) : Option Components :=
  let (main, alpha) :=
    match cut? '/' body with
    | some (main, alpha) => (main, some (trim alpha))
    | none => (body, none)
  let parts := if main.contains ',' then (splitAt ',' main).map trim else words main
  match parts, alpha with
  | [a, b, c], alpha => some ⟨a, b, c, alpha⟩
  | [a, b, c, d], none => some ⟨a, b, c, some d⟩
  | _, _ => none

/-- The number of a text; a percentage stands for its hundredth, and any other number is divided by
`scale`. -/
def fraction? (scale : Float) (s : List Char) : Option Float :=
  match beforeLast? '%' s with
  | some percentage => (Decimal.readFloat? (trim percentage)).map (· / 100)
  | none => (Decimal.readFloat? s).map (· / scale)

/-- The opacity that a text writes, which is 1 when there is none. -/
def alpha? : Option (List Char) → Option Float
  | none => some 1
  | some s => (fraction? 1 s).map fun alpha => Binary64.clamp alpha 0 1

/-- The color with the components of `rgb`. -/
def ofRgb? (c : Components) : Option Rgba := do
  let red ← fraction? 255 c.first
  let green ← fraction? 255 c.second
  let blue ← fraction? 255 c.third
  let alpha ← alpha? c.alpha
  some (Rgba.clamped ⟨red, green, blue, alpha⟩)

/-- A text without any `deg` at its end. -/
def dropDegrees (s : List Char) : List Char := (go s.reverse).reverse
where
  /-- Reads the text from its end. -/
  go : List Char → List Char
    | 'g' :: 'e' :: 'd' :: rest => go rest
    | s => s

/-- The fraction between 0 and 1 that a number, with or without a percent sign, writes. -/
def share? (s : List Char) : Option Float :=
  (Decimal.readFloat? (dropEndWhile (· = '%') s)).map fun x => Binary64.clamp (x / 100) 0 1

/-- The channels of a color with the given hue, the largest of which is `c` and the smallest 0. -/
def hueChannels (hue c : Float) : Float × Float × Float :=
  let h := normalizeHue hue / 60
  let x := c * (1 - (Binary64.remainder h 2 - 1).abs)
  match h.toUInt32.toNat with
  | 0 => (c, x, 0)
  | 1 => (x, c, 0)
  | 2 => (0, c, x)
  | 3 => (0, x, c)
  | 4 => (x, 0, c)
  | _ => (c, 0, x)

/-- The color with the components of `hsl`: hue, saturation and lightness. -/
def ofHsl? (components : Components) : Option Rgba := do
  let hue ← Decimal.readFloat? (dropDegrees components.first)
  let saturation ← share? components.second
  let lightness ← share? components.third
  let alpha ← alpha? components.alpha
  let c := (1 - (2 * lightness - 1).abs) * saturation
  let (red, green, blue) := hueChannels hue c
  let m := lightness - c / 2
  some (Rgba.clamped ⟨red + m, green + m, blue + m, alpha⟩)

/-- The named colors. -/
def names : List (String × Rgba) :=
  [ ("transparent", ⟨0, 0, 0, 0⟩),
    ("white", .ofBytes 255 255 255),
    ("black", .ofBytes 0 0 0),
    ("red", .ofBytes 255 0 0),
    ("green", .ofBytes 0 128 0),
    ("lime", .ofBytes 0 255 0),
    ("blue", .ofBytes 0 0 255),
    ("yellow", .ofBytes 255 255 0),
    ("orange", .ofBytes 255 165 0),
    ("purple", .ofBytes 128 0 128),
    ("gray", .ofBytes 128 128 128),
    ("grey", .ofBytes 128 128 128),
    ("silver", .ofBytes 192 192 192),
    ("maroon", .ofBytes 128 0 0),
    ("olive", .ofBytes 128 128 0),
    ("navy", .ofBytes 0 0 128),
    ("teal", .ofBytes 0 128 128),
    ("aqua", .ofBytes 0 255 255),
    ("cyan", .ofBytes 0 255 255),
    ("fuchsia", .ofBytes 255 0 255),
    ("magenta", .ofBytes 255 0 255),
    ("rebeccapurple", .ofBytes 102 51 153) ]

/-- The color of a trimmed text in lower case. -/
def read? (s : List Char) : Option Rgba :=
  if s.head? = some '#' then Rgba.ofHex? s
  else
    match body? ["rgb", "rgba"] s with
    | some body => components? body >>= ofRgb?
    | none =>
      match body? ["hsl", "hsla"] s with
      | some body => components? body >>= ofHsl?
      | none => KeyedList.get? names (String.ofList s)

/-- The color that a text writes. -/
def parse? (text : String) : Option Rgba := read? ((unquote text.toList).map Char.toLower)

end DesignTokens.Color
