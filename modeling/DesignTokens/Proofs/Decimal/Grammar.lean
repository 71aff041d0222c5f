import DesignTokens.Decimal.Numeral
import DesignTokens.Proofs.Text.Plain

/-!
# The grammar of numerals

A numeral is a sign or none, digits with a point anywhere among them or without one, and an exponent or
none. The scanner takes the longest numeral off a text: what it takes is of the grammar, and a numeral is
taken as a whole if what follows it does not go on with it.

The grammar is stated over a class of digits, as a pattern may admit more digits than can be read. The
digits of the scanner are the ten of ASCII.

A whole text is read as a double if it is a numeral, or the name of an infinity or of no number.
-/

namespace DesignTokens.Decimal

open Text

/-- A letter begins no number. -/
theorem apart_of_isLetter {c : Char} (h : isLetter c = true) :
    isDigit c = false ∧ c ≠ '.' ∧ c ≠ '-' ∧ c ≠ '+' := by
  have range := isLetter_iff.1 h
  refine ⟨Bool.eq_false_iff.2 fun digit => ?_, ?_, ?_, ?_⟩
  · have := isDigit_iff.1 digit
    omega
  all_goals
    rintro rfl
    simp at range

section Texts

/-- A sign or none, and whether it is a minus. -/
inductive SignText : Bool → List Char → Prop where
  | absent : SignText false []
  | plus : SignText false ['+']
  | minus : SignText true ['-']

/-- The digits before and behind the point; at least one of both. -/
inductive MantissaText (digit : Char → Bool) : (whole fraction text : List Char) → Prop where
  | whole {whole : List Char} (filled : whole ≠ []) (digits : ∀ c ∈ whole, digit c = true) :
    MantissaText digit whole [] whole
  | point {whole fraction : List Char} (filled : whole ++ fraction ≠ [])
    (digits : ∀ c ∈ whole ++ fraction, digit c = true) :
    MantissaText digit whole fraction (whole ++ '.' :: fraction)

/-- An exponent or none. -/
inductive ExponentText (digit : Char → Bool) : Int → List Char → Prop where
  | absent : ExponentText digit 0 []
  | present {letter : Char} {negative : Bool} {sign digits : List Char}
    (marked : letter = 'e' ∨ letter = 'E') (signed : SignText negative sign) (filled : digits ≠ [])
    (all : ∀ c ∈ digits, digit c = true) :
    ExponentText digit (if negative then -(digitsValue digits) else digitsValue digits)
      (letter :: (sign ++ digits))

/-- The numerals with digits of some class. -/
inductive NumeralText (digit : Char → Bool) : Numeral → List Char → Prop where
  | intro {negative : Bool} {whole fraction sign mantissa tail : List Char} {exponent : Int}
    (signed : SignText negative sign) (digits : MantissaText digit whole fraction mantissa)
    (scaled : ExponentText digit exponent tail) :
    NumeralText digit ⟨negative, whole, fraction, exponent⟩ (sign ++ (mantissa ++ tail))

end Texts

section Shape

variable {digit wider : Char → Bool} {negative : Bool} {e : Int} {n : Numeral}
variable {s whole fraction sign mantissa tail : List Char}

/-- The digits of a numeral are not empty, and there is nothing else in them but a point. -/
theorem MantissaText.chars (h : MantissaText digit whole fraction mantissa) :
    mantissa ≠ [] ∧ ∀ c ∈ mantissa, digit c = true ∨ c = '.' := by
  cases h with
  | whole filled digits => exact ⟨filled, fun c hc => .inl (digits c hc)⟩
  | point filled digits =>
    refine ⟨by simp, fun c hc => ?_⟩
    rcases List.mem_append.1 hc with hc | hc
    · exact .inl (digits c (List.mem_append_left _ hc))
    · rcases List.mem_cons.1 hc with rfl | hc
      · exact .inr rfl
      · exact .inl (digits c (List.mem_append_right _ hc))

/-- The characters in a numeral that are no digits. -/
def signs : List Char := ['+', '-', '.', 'e', 'E']

theorem SignText.chars (h : SignText negative sign) : ∀ c ∈ sign, c ∈ signs := by
  cases h <;> simp [signs]

theorem ExponentText.chars (h : ExponentText digit e tail) :
    ∀ c ∈ tail, digit c = true ∨ c ∈ signs := by
  cases h with
  | absent => simp
  | present marked signed _ all =>
    refine List.forall_mem_cons.2 ⟨.inr (by rcases marked with rfl | rfl <;> decide), ?_⟩
    exact List.forall_mem_append.2 ⟨fun c hc => .inr (signed.chars c hc), fun c hc => .inl (all c hc)⟩

theorem NumeralText.chars (h : NumeralText digit n s) : ∀ c ∈ s, digit c = true ∨ c ∈ signs := by
  cases h with
  | intro signed digits scaled =>
    refine List.forall_mem_append.2 ⟨fun c hc => .inr (signed.chars c hc), ?_⟩
    refine List.forall_mem_append.2 ⟨fun c hc => ?_, scaled.chars⟩
    exact (digits.chars.2 c hc).imp_right fun point => by simp [signs, point]

/-- A numeral ends with a digit or the point. -/
theorem NumeralText.last (h : NumeralText digit n s) :
    ∀ c ∈ s.getLast?, digit c = true ∨ c = '.' := by
  intro c hc
  cases h with
  | intro signed digits scaled =>
    obtain ⟨filled, chars⟩ := digits.chars
    cases scaled with
    | absent =>
      rw [List.append_nil, List.getLast?_append_of_ne_nil _ filled] at hc
      exact chars c (List.mem_of_getLast? hc)
    | present _ _ filled all =>
      rw [← List.append_assoc, ← List.cons_append, ← List.append_assoc,
        List.getLast?_append_of_ne_nil _ filled] at hc
      exact .inl (all c (List.mem_of_getLast? hc))

section Wider

variable (le : ∀ c, digit c = true → wider c = true)

include le

theorem MantissaText.mono (h : MantissaText digit whole fraction mantissa) :
    MantissaText wider whole fraction mantissa := by
  cases h with
  | whole filled digits => exact .whole filled fun c hc => le c (digits c hc)
  | point filled digits => exact .point filled fun c hc => le c (digits c hc)

theorem ExponentText.mono (h : ExponentText digit e tail) : ExponentText wider e tail := by
  cases h with
  | absent => exact .absent
  | present marked signed filled all => exact .present marked signed filled fun c hc => le c (all c hc)

/-- Numerals stay numerals when more characters count as digits. -/
theorem NumeralText.mono (h : NumeralText digit n s) : NumeralText wider n s := by
  cases h with
  | intro signed digits scaled => exact .intro signed (digits.mono le) (scaled.mono le)

end Wider

theorem isPlain_of_mem_signs {c : Char} (h : c ∈ signs) : isPlain c = true :=
  List.all_eq_true.1 (show signs.all isPlain = true by decide) c h

/-- There are no blanks and no quotes in a numeral. -/
theorem NumeralText.all_isPlain (h : NumeralText isDigit n s) : s.all isPlain = true := by
  refine List.all_eq_true.2 fun c hc => ?_
  rcases h.chars c hc with digit | sign
  · exact isPlain_of_isDigit digit
  · exact isPlain_of_mem_signs sign

end Shape

section Scanning

variable {s t rest front whole fraction mantissa tail : List Char} {negative : Bool} {n : Numeral}
variable {p : Char → Bool} {e : Int}

theorem cutWhile_append (hs : s.all p = true) (hr : ∀ c ∈ rest.head?, p c = false) :
    cutWhile p (s ++ rest) = (s, rest) := by
  have ends : rest.takeWhile p = [] ∧ rest.dropWhile p = rest := by
    cases rest with
    | nil => exact ⟨rfl, rfl⟩
    | cons c rest => simp [hr c rfl]
  have inside : ∀ c ∈ s, p c = true := List.all_eq_true.1 hs
  rw [cutWhile, List.takeWhile_append_of_pos inside, List.dropWhile_append_of_pos inside, ends.1, ends.2,
    List.append_nil]

/-- A text does not go on with a number in front of it. -/
structure Follows (rest : List Char) : Prop where
  digit : ∀ c ∈ rest.head?, isDigit c = false
  point : ∀ c ∈ rest.head?, c ≠ '.'
  exponent : Numeral.scanExponent rest = (0, rest)

theorem follows_nil : Follows [] := ⟨nofun, nofun, rfl⟩

theorem takeSign_sound (h : takeSign s = (negative, t)) :
    ∃ sign, s = sign ++ t ∧ SignText negative sign := by
  rw [takeSign.eq_def] at h
  split at h <;> obtain ⟨rfl, rfl⟩ := Prod.mk.inj h
  · exact ⟨['-'], rfl, .minus⟩
  · exact ⟨['+'], rfl, .plus⟩
  · exact ⟨[], rfl, .absent⟩

theorem takeSign_append {sign : List Char} (signed : SignText negative sign)
    (ht : ∀ c ∈ t.head?, c ≠ '-' ∧ c ≠ '+') : takeSign (sign ++ t) = (negative, t) := by
  cases signed with
  | plus => rfl
  | minus => rfl
  | absent =>
    rw [List.nil_append, takeSign.eq_def]
    split
    · exact absurd rfl (ht '-' rfl).1
    · exact absurd rfl (ht '+' rfl).2
    · rfl

/-- What is cut off is a run of characters of the kind, and the rest is what follows. -/
theorem cutWhile_sound (h : cutWhile p s = (front, t)) : s = front ++ t ∧ ∀ c ∈ front, p c = true := by
  obtain ⟨rfl, rfl⟩ := Prod.mk.inj h
  exact ⟨List.takeWhile_append_dropWhile.symm, List.all_eq_true.1 List.all_takeWhile⟩

theorem scanDigits_append (h : MantissaText isDigit whole fraction mantissa)
    (digit : ∀ c ∈ rest.head?, isDigit c = false) (point : ∀ c ∈ rest.head?, c ≠ '.') :
    Numeral.scanDigits (mantissa ++ rest) = some (whole, fraction, rest) := by
  cases h with
  | whole filled digits =>
    rw [Numeral.scanDigits, cutWhile_append (List.all_eq_true.2 digits) digit]
    dsimp only
    split
    · exact absurd rfl (point '.' rfl)
    · simp [filled]
  | point filled digits =>
    obtain ⟨before, behind⟩ := List.forall_mem_append.1 digits
    have ends : ∀ c ∈ ('.' :: (fraction ++ rest)).head?, isDigit c = false := by
      rintro c ⟨⟩
      rfl
    have after : cutWhile isDigit (fraction ++ rest) = (fraction, rest) :=
      cutWhile_append (List.all_eq_true.2 behind) digit
    have one : (whole.isEmpty && !((fraction ++ rest).head?.any isDigit)) = false := by
      rw [Bool.and_eq_false_iff, Bool.not_eq_false']
      by_cases none : whole = []
      · obtain ⟨c, fraction, rfl⟩ := List.exists_cons_of_ne_nil (by simpa [none] using filled)
        exact .inr (by simpa using behind c (by simp))
      · exact .inl (by simpa using none)
    rw [List.append_assoc, List.cons_append, Numeral.scanDigits,
      cutWhile_append (List.all_eq_true.2 before) ends]
    simp only [one, Bool.false_eq_true, if_false, after]
    exact if_neg (by simpa using filled)

theorem scanDigits_sound (h : Numeral.scanDigits s = some (whole, fraction, t)) :
    ∃ mantissa, s = mantissa ++ t ∧ MantissaText isDigit whole fraction mantissa := by
  obtain ⟨front, behind, cut⟩ : ∃ front behind, cutWhile isDigit s = (front, behind) := ⟨_, _, rfl⟩
  obtain ⟨rfl, digits⟩ := cutWhile_sound cut
  rw [Numeral.scanDigits, cut] at h
  dsimp only at h
  split at h
  · rename_i rest
    split at h
    · -- neither side of the point has a digit
      rename_i none
      have none : front = [] := List.isEmpty_iff.1 ((Bool.and_eq_true _ _).mp none).1
      simp [none] at h
    · obtain ⟨last, after, cut'⟩ : ∃ last after, cutWhile isDigit rest = (last, after) := ⟨_, _, rfl⟩
      obtain ⟨rfl, digits'⟩ := cutWhile_sound cut'
      rw [cut'] at h
      dsimp only at h
      split at h
      · cases h
      · rename_i filled
        obtain ⟨rfl, rfl, rfl⟩ : front = whole ∧ last = fraction ∧ after = t := by simpa using h
        refine ⟨front ++ '.' :: last, by simp, .point (by simpa using filled) ?_⟩
        exact List.forall_mem_append.2 ⟨digits, digits'⟩
  · dsimp only at h
    split at h
    · cases h
    · rename_i filled
      obtain ⟨rfl, rfl, rfl⟩ : front = whole ∧ [] = fraction ∧ behind = t := by simpa using h
      exact ⟨front, rfl, .whole (by simpa using filled) digits⟩

/-- A digit is no sign. -/
theorem ne_sign_of_isDigit {c : Char} (h : isDigit c = true) : c ≠ '-' ∧ c ≠ '+' := by
  constructor <;>
  · rintro rfl
    cases h

theorem scanExponent_append (h : ExponentText isDigit e tail) (hr : Follows rest) :
    Numeral.scanExponent (tail ++ rest) = (e, rest) := by
  cases h with
  | absent => exact hr.exponent
  | @present letter negative sign digits marked signed filled all =>
    have first : ∀ c ∈ (digits ++ rest).head?, c ≠ '-' ∧ c ≠ '+' := by
      obtain ⟨d, digits, rfl⟩ := List.exists_cons_of_ne_nil filled
      rintro c ⟨⟩
      exact ne_sign_of_isDigit (all d (by simp))
    have text : letter :: (sign ++ digits) ++ rest = letter :: (sign ++ (digits ++ rest)) := by simp
    rw [text, Numeral.scanExponent.eq_def]
    dsimp only
    rw [if_pos (by simpa using marked), takeSign_append signed first]
    dsimp only
    rw [cutWhile_append (List.all_eq_true.2 all) hr.digit]
    dsimp only
    rw [if_neg (by simpa using filled)]

theorem scanExponent_sound (h : Numeral.scanExponent s = (e, t)) :
    ∃ tail, s = tail ++ t ∧ ExponentText isDigit e tail := by
  have absent (h : (0, s) = (e, t)) : ∃ tail, s = tail ++ t ∧ ExponentText isDigit e tail := by
    obtain ⟨rfl, rfl⟩ := Prod.mk.inj h
    exact ⟨[], rfl, .absent⟩
  rw [Numeral.scanExponent.eq_def] at h
  split at h
  · rename_i c rest
    split at h
    · rename_i marked
      obtain ⟨negative, behind, signed⟩ : ∃ negative behind, takeSign rest = (negative, behind) :=
        ⟨_, _, rfl⟩
      obtain ⟨digits, after, cut⟩ : ∃ digits after, cutWhile isDigit behind = (digits, after) :=
        ⟨_, _, rfl⟩
      rw [signed] at h
      dsimp only at h
      rw [cut] at h
      dsimp only at h
      split at h
      · exact absent h
      · rename_i filled
        obtain ⟨sign, rfl, signText⟩ := takeSign_sound signed
        obtain ⟨rfl, all⟩ := cutWhile_sound cut
        obtain ⟨rfl, rfl⟩ := Prod.mk.inj h
        refine ⟨c :: (sign ++ digits), by simp, ?_⟩
        exact .present (by simpa using marked) signText (by simpa using filled) all
    · exact absent h
  · exact absent h

/-- What the scanner takes off a text is a numeral. -/
theorem scan_sound (h : Numeral.scan s = some (n, rest)) :
    ∃ front, s = front ++ rest ∧ NumeralText isDigit n front := by
  obtain ⟨negative, t, signed⟩ : ∃ negative t, takeSign s = (negative, t) := ⟨_, _, rfl⟩
  rw [Numeral.scan, signed] at h
  simp only [Option.bind_eq_bind, Option.bind_eq_some_iff, Prod.exists] at h
  obtain ⟨whole, fraction, u, digits, h⟩ := h
  obtain ⟨exponent, v, scaled⟩ : ∃ exponent v, Numeral.scanExponent u = (exponent, v) := ⟨_, _, rfl⟩
  rw [scaled] at h
  obtain ⟨rfl, rfl⟩ : _ = n ∧ v = rest := by simpa using h
  obtain ⟨sign, rfl, signText⟩ := takeSign_sound signed
  obtain ⟨mantissa, rfl, mantissaText⟩ := scanDigits_sound digits
  obtain ⟨tail, rfl, tailText⟩ := scanExponent_sound scaled
  exact ⟨sign ++ (mantissa ++ tail), by simp, .intro signText mantissaText tailText⟩

/-- A numeral is scanned as a whole if nothing behind it goes on with it. -/
theorem scan_append (h : NumeralText isDigit n front) (hr : Follows rest) :
    Numeral.scan (front ++ rest) = some (n, rest) := by
  cases h with
  | @intro negative whole fraction sign mantissa tail exponent signed digits scaled =>
    obtain ⟨filled, chars⟩ := digits.chars
    have first : ∀ c ∈ (mantissa ++ (tail ++ rest)).head?, c ≠ '-' ∧ c ≠ '+' := by
      obtain ⟨d, others, rfl⟩ := List.exists_cons_of_ne_nil filled
      rintro c ⟨⟩
      rcases chars d (by simp) with digit | rfl
      · exact ne_sign_of_isDigit digit
      · decide
    have ends : ∀ c ∈ (tail ++ rest).head?, isDigit c = false ∧ c ≠ '.' := by
      cases scaled with
      | absent => exact fun c hc => ⟨hr.digit c hc, hr.point c hc⟩
      | present marked =>
        rintro c ⟨⟩
        rcases marked with rfl | rfl <;> decide
    have text : sign ++ (mantissa ++ tail) ++ rest = sign ++ (mantissa ++ (tail ++ rest)) := by simp
    rw [text, Numeral.scan, takeSign_append signed first]
    simp [scanDigits_append digits (fun c hc => (ends c hc).1) fun c hc => (ends c hc).2,
      scanExponent_append scaled hr]

/-- A whole text is scanned exactly if it is a numeral. -/
theorem scan_eq_some_nil_iff : Numeral.scan s = some (n, []) ↔ NumeralText isDigit n s := by
  constructor
  · intro h
    obtain ⟨front, rfl, text⟩ := scan_sound h
    rwa [List.append_nil]
  · intro h
    have scanned := scan_append h follows_nil
    rwa [List.append_nil] at scanned

end Scanning

section Doubles

/-- The texts that are read as doubles: numerals, and the names of the infinities and of no number in any
case with a sign or without one. -/
inductive FloatText : List Char → Float → Prop where
  | number {n : Numeral} {s : List Char} (text : NumeralText isDigit n s) : FloatText s n.toFloat
  | infinity {negative : Bool} {sign name : List Char} (signed : SignText negative sign)
    (named : name.map Char.toLower = "inf".toList ∨ name.map Char.toLower = "infinity".toList) :
    FloatText (sign ++ name) (if negative then -(1 / 0) else 1 / 0)
  | nan {negative : Bool} {sign name : List Char} (signed : SignText negative sign)
    (named : name.map Char.toLower = "nan".toList) : FloatText (sign ++ name) Binary64.nan

variable {s sign name : List Char} {x : Float} {negative : Bool}

/-- A text that begins with a letter is no numeral and has no sign. -/
theorem scan_name (signed : SignText negative sign)
    (named : (name.map Char.toLower).head?.any isLetter = true) :
    takeSign (sign ++ name) = (negative, name) ∧ Numeral.scan (sign ++ name) = none := by
  obtain ⟨c, rest, rfl⟩ : ∃ c rest, name = c :: rest :=
    List.exists_cons_of_ne_nil fun empty => by simp [empty] at named
  have letter : isLetter c = true := isLetter_of_toLower (by simpa using named)
  obtain ⟨digit, point, minus, plus⟩ := apart_of_isLetter letter
  have taken : takeSign (sign ++ c :: rest) = (negative, c :: rest) := by
    refine takeSign_append signed ?_
    rintro c ⟨⟩
    exact ⟨minus, plus⟩
  refine ⟨taken, ?_⟩
  have none : Numeral.scanDigits (c :: rest) = none := by
    refine Option.eq_none_iff_forall_ne_some.2 fun ⟨whole, fraction, t⟩ scanned => ?_
    obtain ⟨mantissa, text, digits⟩ := scanDigits_sound scanned
    obtain ⟨filled, chars⟩ := digits.chars
    obtain ⟨d, mantissa, rfl⟩ := List.exists_cons_of_ne_nil filled
    obtain ⟨rfl, -⟩ := List.cons.inj text
    rcases chars c (by simp) with isDigit | isPoint
    · rw [digit] at isDigit
      cases isDigit
    · exact point isPoint
  simp [Numeral.scan, taken, none]

/-- What is read as a double, and as which one. -/
theorem readFloat?_eq_some_iff : readFloat? s = some x ↔ FloatText s x := by
  constructor
  · intro read
    rw [readFloat?] at read
    split at read
    · rename_i n scanned
      obtain rfl := Option.some.inj read
      exact .number (scan_eq_some_nil_iff.1 scanned)
    · obtain ⟨negative, name, signed⟩ : ∃ negative name, takeSign s = (negative, name) := ⟨_, _, rfl⟩
      obtain ⟨sign, rfl, signText⟩ := takeSign_sound signed
      rw [signed] at read
      dsimp only at read
      split at read
      · rename_i infinite
        obtain rfl := Option.some.inj read
        have named := (Bool.or_eq_true _ _).mp infinite
        exact .infinity signText (named.imp of_decide_eq_true of_decide_eq_true)
      · split at read
        · rename_i nan
          obtain rfl := Option.some.inj read
          exact .nan signText nan
        · cases read
  · intro text
    cases text with
    | number text => rw [readFloat?, scan_eq_some_nil_iff.2 text]
    | infinity signed named =>
      obtain ⟨taken, none⟩ := scan_name signed (by rcases named with h | h <;> rw [h] <;> rfl)
      rw [readFloat?, none, taken]
      dsimp only
      rw [if_pos ((Bool.or_eq_true _ _).mpr (named.imp decide_eq_true decide_eq_true))]
    | nan signed named =>
      obtain ⟨taken, none⟩ := scan_name signed (by rw [named]; rfl)
      rw [readFloat?, none, taken]
      dsimp only
      rw [if_neg (by rw [named]; decide), if_pos named]

/-- A name that is read as a double ends with the last letter of one of the names in lower case. -/
theorem toLower_of_mem_getLast? {c d : Char} (named : (name.map Char.toLower).getLast? = some d)
    (hc : c ∈ (sign ++ name).getLast?) : c.toLower = d := by
  rw [List.getLast?_map, Option.map_eq_some_iff] at named
  obtain ⟨last, ends, lower⟩ := named
  rw [List.getLast?_append, ends, Option.some_or, Option.mem_some_iff] at hc
  rwa [← hc]

/-- There are three letters with which the text of a double ends. -/
theorem FloatText.last (h : FloatText s x) :
    ∀ c ∈ s.getLast?, isDigit c = true ∨ c = '.' ∨ c.toLower ∈ ['f', 'y', 'n'] := by
  intro c hc
  cases h with
  | number text => exact (text.last c hc).imp_right .inl
  | infinity _ named =>
    obtain named | named := named
    · exact .inr (.inr (by simp [toLower_of_mem_getLast? (d := 'f') (by rw [named]; rfl) hc]))
    · exact .inr (.inr (by simp [toLower_of_mem_getLast? (d := 'y') (by rw [named]; rfl) hc]))
  | nan _ named =>
    exact .inr (.inr (by simp [toLower_of_mem_getLast? (d := 'n') (by rw [named]; rfl) hc]))

/-- There are no blanks and no quotes in the text of a double. -/
theorem FloatText.all_isPlain (h : FloatText s x) : s.all isPlain = true := by
  have name_plain {negative : Bool} {sign name : List Char} (signed : SignText negative sign)
      (letters : (name.map Char.toLower).all isLetter = true) : (sign ++ name).all isPlain = true := by
    rw [List.all_append, Bool.and_eq_true, List.all_eq_true, List.all_eq_true]
    refine ⟨fun c hc => isPlain_of_mem_signs (signed.chars c hc), fun c hc => ?_⟩
    exact isPlain_of_isLetter (isLetter_of_toLower
      (List.all_eq_true.1 letters c.toLower (List.mem_map_of_mem hc)))
  cases h with
  | number text => exact text.all_isPlain
  | infinity signed named =>
    refine name_plain signed ?_
    obtain named | named := named <;>
    · rw [named]
      decide
  | nan signed named => exact name_plain signed (by rw [named]; decide)

/-- The names hold a letter that is in no numeral. -/
theorem NumeralText.toLower_ne {digit : Char → Bool} {n : Numeral} {c : Char}
    (apart : ∀ c, digit c = true → isLetter c = false) (h : NumeralText digit n s) (hc : c ∈ s) :
    c.toLower ≠ 'n' := by
  intro lower
  have letter : isLetter c = true := isLetter_of_toLower (by rw [lower]; rfl)
  rcases h.chars c hc with hd | sign
  · rw [apart c hd] at letter
    cases letter
  · have others : signs.all (fun c => c.toLower != 'n') = true := by decide
    exact bne_iff_ne.1 (List.all_eq_true.1 others c sign) lower

/-- A numeral with digits of any class that is read as a double is one with digits of ASCII. -/
theorem NumeralText.ascii {digit : Char → Bool} {n : Numeral}
    (apart : ∀ c, digit c = true → isLetter c = false) (h : NumeralText digit n s)
    (read : FloatText s x) : ∃ m, NumeralText isDigit m s ∧ m.toFloat = x := by
  cases read with
  | number text => exact ⟨_, text, rfl⟩
  | @infinity _ _ name _ named =>
    have letter : 'n' ∈ name.map Char.toLower := by rcases named with h | h <;> rw [h] <;> decide
    obtain ⟨c, hc, lower⟩ := List.mem_map.1 letter
    exact absurd lower (h.toLower_ne apart (List.mem_append_right _ hc))
  | @nan _ _ name _ named =>
    have letter : 'n' ∈ name.map Char.toLower := by rw [named]; decide
    obtain ⟨c, hc, lower⟩ := List.mem_map.1 letter
    exact absurd lower (h.toLower_ne apart (List.mem_append_right _ hc))

end Doubles

end DesignTokens.Decimal
