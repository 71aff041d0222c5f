import DesignTokens.Proofs.Expression.Balance
import DesignTokens.Proofs.Expression.Layout

/-!
# The grammar of calls

A text is a call exactly if it is a name and a well-nested text between parentheses, with blanks around
the whole, and it is this in one way only. Reading a call gives the name and the arguments in the body.

The search for the parenthesis that closes a call goes over the body inside of one pair of parentheses,
and the search for its arguments outside of it. The two keep in step: the one ends at the first
parenthesis that the other could not close.
-/

namespace DesignTokens

open Text

namespace Expression

variable {n : Nesting} {c : Char} {s body after name : List Char}

/-- What is open, inside of one more pair of parentheses. -/
def Nesting.inParen (n : Nesting) : Nesting := { n with parens := n.parens + 1 }

/-- One pair of parentheses more makes no difference to what can be closed without it. -/
theorem Nesting.feed_inParen (h : c = ')' → n.quote = none → 0 < n.parens) :
    n.inParen.feed c = (n.feed c).inParen := by
  obtain ⟨parens, braces, quote⟩ := n
  cases quote with
  | some q =>
    rw [feed_of_quote rfl, feed_of_quote rfl]
    split <;> rfl
  | none =>
    by_cases hq : isQuote c = true
    · rw [feed_of_isQuote rfl hq, feed_of_isQuote rfl hq]
      rfl
    · have hq : isQuote c = false := by simpa using hq
      rw [feed_of_not_isQuote rfl hq, feed_of_not_isQuote rfl hq]
      by_cases hc : c = ')'
      · have closes := h hc rfl
        subst hc
        simp only [inParen, depth, List.foldl_cons, List.foldl_nil, Nesting.mk.injEq]
        simp at closes ⊢
        omega
      · simp only [inParen, depth, List.foldl_cons, List.foldl_nil, hc]
        split <;> rfl

/-- Inside of one more pair, a scan ends at a parenthesis that could not be closed without it. -/
theorem closeParen_cons (n : Nesting) (c : Char) (rest : List Char) :
    closeParen n.inParen (c :: rest) =
      if c = ')' ∧ n.quote = none ∧ n.parens = 0 then some ([], rest)
      else (closeParen (n.feed c).inParen rest).map fun (body, after) => (c :: body, after) := by
  rw [closeParen]
  split
  · rename_i ends
    obtain ⟨⟨bare, rfl⟩, none⟩ : (n.quote = none ∧ c = ')') ∧ (n.inParen.feed c).parens = 0 := by
      simpa [Nesting.inParen] using ends
    rw [Nesting.feed_of_not_isQuote (by exact bare) (by decide)] at none
    rw [if_pos ⟨rfl, bare, by simpa [depth, Nesting.inParen] using none⟩]
  · rename_i goesOn
    have closes : c = ')' → n.quote = none → 0 < n.parens := by
      rintro rfl bare
      rw [Nesting.feed_of_not_isQuote (by exact bare) (by decide)] at goesOn
      simp [depth, Nesting.inParen, bare] at goesOn
      omega
    rw [if_neg, Nesting.feed_inParen closes]
    rintro ⟨hc, bare, none⟩
    have := closes hc bare
    omega

/-- The parenthesis that closes a call is the first one that its body leaves to be closed. -/
theorem closeParen_eq_some_iff :
    closeParen n.inParen s = some (body, after) ↔
      s = body ++ ')' :: after ∧ n.Covers body ∧ (n.feedAll body).parens = 0 ∧
        (n.feedAll body).quote = none := by
  induction s generalizing n body with
  | nil => simp [closeParen]
  | cons c rest ih =>
    rw [closeParen_cons]
    split
    · rename_i ends
      obtain ⟨rfl, bare, none⟩ := ends
      cases body with
      | nil =>
        have empty : n.Covers [] := Nesting.atEach_nil n _ _
        simp [empty, bare, none, eq_comm]
      | cons d body =>
        have tooEarly : ¬ n.Covers (')' :: body) := by
          intro h
          have := (Nesting.atEach_cons.1 h).1 rfl bare
          omega
        constructor
        · simp
        · rintro ⟨hs, covers, -⟩
          obtain ⟨rfl, -⟩ := List.cons.inj hs
          exact absurd covers tooEarly
    · rename_i goesOn
      cases body with
      | nil =>
        constructor
        · simp
        · rintro ⟨hs, -, none, bare⟩
          exact absurd ⟨(List.cons.inj hs).1, bare, none⟩ goesOn
      | cons d body =>
        have covers (hd : c = d) : n.Covers (d :: body) ↔ (n.feed c).Covers body := by
          subst hd
          rw [Nesting.Covers, Nesting.atEach_cons]
          exact and_iff_right fun hc bare => Nat.pos_of_ne_zero fun none => goesOn ⟨hc, bare, none⟩
        constructor
        · intro h
          obtain ⟨⟨b, a⟩, hb, he⟩ := Option.map_eq_some_iff.1 h
          obtain ⟨⟨rfl, rfl⟩, rfl⟩ := by simpa using he
          obtain ⟨rfl, hv, rest⟩ := ih.1 hb
          exact ⟨rfl, (covers rfl).2 hv, rest⟩
        · rintro ⟨hs, hv, ends⟩
          obtain ⟨rfl, tail⟩ := List.cons.inj hs
          rw [ih.2 ⟨tail, (covers rfl).1 hv, ends⟩]
          rfl

end Expression

namespace Call

open Expression

variable {s name body : List Char} {text : String}

/-- A text is one call, without blanks around it, exactly if it is a name and a well-nested body
between parentheses. -/
theorem span?_eq_some_iff :
    span? s = some (name, body) ↔
      s = name ++ '(' :: body ++ [')'] ∧ isName name = true ∧ WellNested body := by
  have closed {rest : List Char} :
      closeParen ⟨1, 0, none⟩ rest = some (body, []) ↔ rest = body ++ [')'] ∧ WellNested body := by
    rw [wellNested_iff]
    exact closeParen_eq_some_iff (n := Nesting.outside)
  constructor
  · intro h
    obtain ⟨rest, rfl, ends, named⟩ := exists_closed_of_span? h
    obtain ⟨rfl, nested⟩ := closed.1 ends
    exact ⟨by rw [List.append_assoc]; rfl, named, nested⟩
  · rintro ⟨rfl, named, nested⟩
    have chars := isNameChar_of_isName named
    have start : (name ++ '(' :: body ++ [')']).takeWhile isNameChar = name := by
      rw [List.append_assoc, List.takeWhile_append_of_pos chars]
      simp [isNameChar]
    have rest : (name ++ '(' :: body ++ [')']).dropWhile isNameChar = '(' :: (body ++ [')']) := by
      rw [List.append_assoc, List.dropWhile_append_of_pos chars]
      rfl
    simp only [span?, start, rest, closed.2 ⟨rfl, nested⟩, named, ↓reduceIte]

/-- A text is written as a name and a body between parentheses, with blanks around the whole. -/
structure Spells (name body : List Char) (text : String) : Prop where
  trimmed : trim text.toList = name ++ '(' :: body ++ [')']
  named : isName name = true
  nested : WellNested body

theorem spells_iff : Spells name body text ↔ span? (trim text.toList) = some (name, body) := by
  rw [span?_eq_some_iff]
  constructor
  · rintro ⟨trimmed, named, nested⟩
    exact ⟨trimmed, named, nested⟩
  · rintro ⟨trimmed, named, nested⟩
    exact ⟨trimmed, named, nested⟩

/-- Reading a call gives its name and the arguments in its body. -/
theorem Spells.parse?_eq (h : Spells name body text) :
    parse? text = some ⟨String.ofList name, (splitArguments body).map String.ofList⟩ := by
  simp [parse?, split?, spells_iff.1 h]

/-- A call that was read is spelled by its name and the body that its arguments stand in. -/
theorem exists_spells {call : Call} (h : parse? text = some call) :
    ∃ body, Spells call.name.toList body text ∧
      call.arguments.map String.toList = splitArguments body := by
  obtain ⟨⟨name, args⟩, hs, rfl⟩ := Option.map_eq_some_iff.1 h
  obtain ⟨⟨name', body⟩, hb, he⟩ := Option.map_eq_some_iff.1 hs
  obtain ⟨rfl, rfl⟩ := by simpa using he
  exact ⟨body, by simpa using spells_iff.2 hb, by simp [Function.comp_def]⟩

/-- A text is a call exactly if it is spelled as one, and then in one way only. The call has the name
and the arguments in the body; where these are told apart, no parenthesis in the body is closed that
was not opened there, and in the end no parenthesis and no quote is open. -/
theorem recognized_by_grammar (text : String) :
    (isCall text = true ↔ ∃ name body, Spells name body text) ∧
      ∀ name body, Spells name body text →
        (∀ name' body', Spells name' body' text → name' = name ∧ body' = body) ∧
          parse? text =
            some ⟨String.ofList name, (splitArguments body).map String.ofList⟩ ∧
          Nesting.outside.Covers body ∧ (Nesting.outside.feedAll body).parens = 0 ∧
          (Nesting.outside.feedAll body).quote = none := by
  refine ⟨?_, ?_⟩
  · simp only [spells_iff, isCall, Option.isSome_iff_exists, Prod.exists]
  · intro name body spelled
    have read := spells_iff.1 spelled
    refine ⟨?_, spelled.parse?_eq, wellNested_iff.1 spelled.nested⟩
    intro name' body' other
    rw [spells_iff, read] at other
    obtain ⟨rfl, rfl⟩ := by simpa using other
    exact ⟨rfl, rfl⟩

end Call

end DesignTokens
