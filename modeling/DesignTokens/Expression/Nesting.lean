import DesignTokens.Text.Basic

/-!
# Nesting of brackets and quotes

A scan of expression text keeps count of open parentheses and braces and of the quote it is inside.
Nothing inside quotes counts, a quote ends at the next quote of the same kind, and a closing bracket
without an opening one is passed over.

On this footing a text is cut at the commas that stand outside every bracket and quote, which is how
the arguments of a call and the pairs of an object literal are told apart.
-/

namespace DesignTokens.Expression

open Text

/-- What is open at a place in a text. -/
structure Nesting where
  parens : Nat
  braces : Nat
  quote : Option Char
  deriving DecidableEq, Repr

namespace Nesting

/-- Nothing is open. -/
def outside : Nesting := ⟨0, 0, none⟩

/-- What is open after one more character. -/
def feed (n : Nesting) (c : Char) : Nesting :=
  match n.quote with
  | some q => if c = q then { n with quote := none } else n
  | none =>
    if c = '\'' || c = '"' then { n with quote := some c }
    else if c = '(' then { n with parens := n.parens + 1 }
    else if c = ')' then { n with parens := n.parens - 1 }
    else if c = '{' then { n with braces := n.braces + 1 }
    else if c = '}' then { n with braces := n.braces - 1 }
    else n

/-- What is open after a text. -/
def feedAll (n : Nesting) (s : List Char) : Nesting := s.foldl feed n

/-- Whether nothing is open. -/
def isOutside (n : Nesting) : Bool := n.parens == 0 && n.braces == 0 && n.quote.isNone

end Nesting

/-- The text up to the parenthesis that closes the last open one, and the text behind it. -/
def closeParen (n : Nesting) : List Char → Option (List Char × List Char)
  | [] => none
  | c :: rest =>
    if n.quote.isNone && c = ')' && (n.feed c).parens == 0 then some ([], rest)
    else (closeParen (n.feed c) rest).map fun (body, after) => (c :: body, after)

/-- The pieces between the commas outside brackets and quotes; there is always at least one. -/
def pieces (n : Nesting) : List Char → List (List Char)
  | [] => [[]]
  | c :: rest =>
    if c = ',' && n.isOutside then [] :: pieces n rest
    else
      match pieces (n.feed c) rest with
      | [] => [[c]]
      | piece :: others => (c :: piece) :: others

/-- The arguments in the text between the parentheses of a call: its pieces, trimmed. A last piece
that is blank is no argument. -/
def splitArguments (body : List Char) : List (List Char) :=
  let args := (pieces .outside body).map trim
  if args.getLast? = some [] then args.dropLast else args

/-- The closing parenthesis stands between the body and what follows. -/
theorem eq_of_closeParen {n : Nesting} {s body after : List Char}
    (h : closeParen n s = some (body, after)) : s = body ++ ')' :: after := by
  induction s generalizing n body with
  | nil => simp [closeParen] at h
  | cons c rest ih =>
    unfold closeParen at h
    split at h
    · rename_i hc
      simp only [Bool.and_eq_true, decide_eq_true_eq] at hc
      obtain ⟨rfl, rfl⟩ := by simpa using h
      rw [hc.1.2]
      rfl
    · obtain ⟨⟨b, a⟩, hb, he⟩ := Option.map_eq_some_iff.1 h
      obtain ⟨rfl, rfl⟩ := by simpa using he
      rw [ih hb]
      rfl

theorem length_trim_le (s : List Char) : (trim s).length ≤ s.length := by
  have h (p : Char → Bool) (l : List Char) : (l.dropWhile p).length ≤ l.length :=
    (List.dropWhile_sublist p).length_le
  have h₁ := h isBlank (trimStart s).reverse
  have h₂ := h isBlank s
  simp only [trim, trimEnd, List.length_reverse] at h₁ ⊢
  exact Nat.le_trans h₁ h₂

theorem length_le_of_mem_pieces {n : Nesting} {s piece : List Char} (h : piece ∈ pieces n s) :
    piece.length ≤ s.length := by
  induction s generalizing n piece with
  | nil => simp_all [pieces]
  | cons c rest ih =>
    unfold pieces at h
    split at h
    · rcases List.mem_cons.1 h with rfl | h
      · simp
      · exact Nat.le_succ_of_le (ih h)
    · split at h
      · rename_i hp
        simp_all
      · rename_i first others hp
        rcases List.mem_cons.1 h with rfl | h
        · have := @ih (n.feed c) first (by simp [hp])
          simp only [List.length_cons]
          omega
        · exact Nat.le_succ_of_le (ih (n := n.feed c) (by simp [hp, h]))

theorem length_le_of_mem_splitArguments {body arg : List Char} (h : arg ∈ splitArguments body) :
    arg.length ≤ body.length := by
  have h : arg ∈ (pieces .outside body).map trim := by
    unfold splitArguments at h
    dsimp only at h
    split at h
    · exact (List.dropLast_sublist _).subset h
    · exact h
  obtain ⟨piece, hp, rfl⟩ := List.mem_map.1 h
  exact Nat.le_trans (length_trim_le piece) (length_le_of_mem_pieces hp)

end DesignTokens.Expression
