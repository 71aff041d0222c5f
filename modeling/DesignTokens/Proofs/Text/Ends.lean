import DesignTokens.Proofs.Text.Padding

/-!
# The ends of a text

What a text begins with and what it ends with can be cut off in one way. A text is `Bare` when there is
nothing to take off at its ends, neither blanks nor quotes.
-/

namespace DesignTokens.Text

variable {s rest start : List Char} {c : Char}

theorem afterStart?_eq_some_iff : afterStart? start s = some rest ↔ s = start ++ rest := by
  induction start generalizing s with
  | nil => simp [afterStart?]
  | cons a start ih =>
    cases s with
    | nil => simp [afterStart?]
    | cons b s =>
      rw [afterStart?]
      split
      · rename_i same
        rw [ih, List.cons_append, List.cons.injEq, and_iff_right same.symm]
      · rename_i different
        simp [Ne.symm different]

theorem isSome_afterStart?_iff : (afterStart? start s).isSome = true ↔ start <+: s := by
  simp only [Option.isSome_iff_exists, afterStart?_eq_some_iff]
  exact exists_congr fun rest => eq_comm

theorem beforeLast?_eq_some_iff : beforeLast? c s = some rest ↔ s = rest ++ [c] := by
  rcases List.eq_nil_or_concat s with rfl | ⟨front, d, rfl⟩
  · simp [beforeLast?]
  · rw [List.concat_eq_append, beforeLast?, List.reverse_append]
    show (if d = c then some front.reverse.reverse else none) = some rest ↔ _
    rw [List.reverse_reverse, List.append_singleton_inj]
    simp [and_comm]

theorem beforeLast?_eq_none_iff : beforeLast? c s = none ↔ s.getLast? ≠ some c := by
  simp only [Option.eq_none_iff_forall_ne_some, ne_eq, beforeLast?_eq_some_iff,
    List.getLast?_eq_some_iff, not_exists]

theorem dropEndWhile_concat (p : Char → Bool) (s : List Char) (c : Char) :
    dropEndWhile p (s ++ [c]) = if p c then dropEndWhile p s else s ++ [c] := by
  rw [dropEndWhile, List.reverse_concat, List.dropWhile_cons]
  split
  · rfl
  · simp

theorem dropEndWhile_eq_self {p : Char → Bool} (h : ∀ c ∈ s.getLast?, p c = false) :
    dropEndWhile p s = s := by
  obtain rfl | ⟨front, last, rfl⟩ := List.eq_nil_or_concat s
  · rfl
  · rw [List.concat_eq_append, List.getLast?_concat] at h
    rw [List.concat_eq_append, dropEndWhile_concat, h last rfl, if_neg Bool.false_ne_true]

/-- A text has no blanks at its ends and no quote at its start. -/
structure Bare (s : List Char) : Prop where
  length : 2 ≤ s.length
  first : ∀ c ∈ s.head?, isBlank c = false ∧ c ≠ '\'' ∧ c ≠ '"'
  last : ∀ c ∈ s.getLast?, isBlank c = false

theorem bare_iff : Bare s ↔ 2 ≤ s.length ∧
    s.head?.all (fun c => !isBlank c && c != '\'' && c != '"') = true ∧
      s.getLast?.all (fun c => !isBlank c) = true := by
  rw [Option.all_eq_true, Option.all_eq_true]
  constructor
  · rintro ⟨length, first, last⟩
    refine ⟨length, fun c hc => ?_, fun c hc => ?_⟩
    · simp [first c hc]
    · simp [last c hc]
  · rintro ⟨length, first, last⟩
    refine ⟨length, fun c hc => ?_, fun c hc => ?_⟩
    · simpa [and_assoc] using first c hc
    · simpa using last c hc

instance (s : List Char) : Decidable (Bare s) := decidable_of_iff _ bare_iff.symm

/-- What stands between the ends of a bare text does not matter. -/
theorem Bare.of_ends {first last : Char} {middle : List Char}
    (hf : isBlank first = false ∧ first ≠ '\'' ∧ first ≠ '"') (hl : isBlank last = false) :
    Bare (first :: middle ++ [last]) where
  length := by simp
  first := by simpa using hf
  last c hc := by
    rw [List.getLast?_concat, Option.mem_some_iff] at hc
    rwa [← hc]

theorem Bare.exists_ends (h : Bare s) : ∃ first middle last, s = first :: middle ++ [last] := by
  obtain ⟨length, -, -⟩ := h
  match s with
  | first :: second :: rest =>
    refine ⟨first, (second :: rest).dropLast, (second :: rest).getLast (by simp), ?_⟩
    rw [List.cons_append, List.dropLast_concat_getLast]

theorem unquote_of_bare (h : Bare s) : unquote s = s := by
  obtain ⟨first, middle, last, rfl⟩ := h.exists_ends
  obtain ⟨hf, single, double⟩ := h.first first rfl
  rw [unquote, trim_eq_self hf (h.last last List.getLast?_concat)]
  cases middle <;> simp [single, double]

/-- Without quotes there is nothing to take off but blanks. -/
theorem unquote_eq_trim (single : '\'' ∉ s) (double : '"' ∉ s) : unquote s = trim s := by
  rw [unquote]
  split
  · rename_i first second rest split
    have inside : first ∈ s := by
      obtain ⟨before, after, padded, -, -⟩ := padded_trim s
      rw [padded, split]
      simp
    have none : first ≠ '\'' ∧ first ≠ '"' := by
      constructor <;> rintro rfl <;> contradiction
    simp [none]
  · rfl

/-- Blanks around a text are taken off with its quotes. -/
theorem unquote_eq_of_padded {inner : List Char} (h : Padded inner s) : unquote s = unquote inner := by
  rw [unquote, unquote, trim_eq_of_padded h]

/-- A trimmed text that does not begin with a quote is in none. -/
theorem unquote_eq_self (trimmed : trim s = s) (h : ∀ c ∈ s.head?, c ≠ '\'' ∧ c ≠ '"') :
    unquote s = s := by
  rw [unquote, trimmed]
  split
  · obtain ⟨single, double⟩ := h _ rfl
    simp [single, double]
  · rfl

section Quoted

variable {quote : Char} (hq : quote = '\'' ∨ quote = '"')

include hq

theorem isBlank_quote : isBlank quote = false := by rcases hq with rfl | rfl <;> decide

theorem trim_quoted (s : List Char) : trim (quote :: s ++ [quote]) = quote :: s ++ [quote] :=
  trim_eq_self (isBlank_quote hq) (isBlank_quote hq)

/-- Quotes that are put around a text are taken off again. -/
theorem unquote_quoted (s : List Char) : unquote (quote :: s ++ [quote]) = s := by
  rw [unquote, trim_quoted hq]
  cases s with
  | nil => simp [hq]
  | cons c s =>
    have last : (c :: s ++ [quote]).getLast? = some quote := List.getLast?_concat
    have inside : (c :: s ++ [quote]).dropLast = c :: s := List.dropLast_concat
    rw [List.cons_append] at last inside
    simp [hq, last, inside]

end Quoted

theorem toLower_of_isBlank (h : isBlank c = true) : c.toLower = c := by
  refine dif_neg ?_
  rintro ⟨low, high⟩
  have low : 65 ≤ c.toNat := low
  have high : c.toNat ≤ 90 := high
  simp only [isBlank, Bool.or_eq_true, Bool.and_eq_true, decide_eq_true_eq, beq_iff_eq] at h
  omega

/-- The case of letters does not matter for what stands at the ends. -/
theorem bare_of_map_toLower (h : Bare (s.map Char.toLower)) : Bare s := by
  have still {c : Char} (h : isBlank c.toLower = false) : isBlank c = false := by
    refine eq_false_of_ne_true fun blank => ?_
    rw [toLower_of_isBlank blank, blank] at h
    exact absurd h (by decide)
  refine ⟨by simpa using h.length, fun c hc => ?_, fun c hc => ?_⟩
  · obtain ⟨hf, single, double⟩ := h.first c.toLower (by simp [List.head?_map, Option.mem_def.1 hc])
    refine ⟨still hf, ?_, ?_⟩
    · rintro rfl
      exact single (by decide)
    · rintro rfl
      exact double (by decide)
  · exact still (h.last c.toLower (by simp [List.getLast?_map, Option.mem_def.1 hc]))

end DesignTokens.Text
