/-!
# Results of readers

A reader takes something off the start of a text. Its result holds the rest and the fact that the rest
is shorter, so that readers can call one another and end.
-/

namespace DesignTokens.Text

/-- What a reader found at the start of `s`, and the strictly shorter text behind it. -/
structure Found (α : Type) (s : List Char) where
  value : α
  rest : List Char
  shorter : rest.length < s.length

theorem length_dropWhile_le (p : Char → Bool) (s : List Char) :
    (s.dropWhile p).length ≤ s.length := (List.dropWhile_sublist p).length_le

theorem length_drop_lt (c : Char) (rest : List Char) (n : Nat) :
    (rest.drop n).length < (c :: rest).length := by
  rw [List.length_drop, List.length_cons]
  omega

end DesignTokens.Text
