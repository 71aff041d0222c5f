import DesignTokens.Proofs.Expression.Signature

/-!
# How a call is written

A call is a name and a body between parentheses, with blanks around the whole. The arguments are the
pieces of the body between commas, without the blanks around them and without a blank piece at the end.
So the signature is one text among many that the same call can be written as: nothing stands around it,
one blank follows each comma between arguments, and no other blanks stand around an argument.

A call that is written anew as its signature stays what it was exactly if it was written so.
-/

namespace DesignTokens

open Text

namespace Expression

/-- The pieces of a body that is written as in a signature: all but the first begin with a blank. -/
def spaced : List (List Char) → List (List Char)
  | [] => [[]]
  | first :: others => first :: others.map (' ' :: ·)

/-- Some pieces, each behind a comma. -/
def behindCommas (pieces : List (List Char)) : List Char := pieces.flatMap (',' :: ·)

theorem flush_behindCommas (pieces : List (List Char)) : Flush (behindCommas pieces) := by
  cases pieces with
  | nil => simp [Flush, behindCommas]
  | cons piece pieces =>
    intro c hc
    obtain rfl : ',' = c := by simpa [behindCommas] using hc
    decide

/-- A text is its first piece and the others behind commas. -/
theorem exists_pieces_eq_cons (n : Nesting) (s : List Char) :
    ∃ first others, pieces n s = first :: others ∧ s = first ++ behindCommas others := by
  induction s generalizing n with
  | nil => exact ⟨[], [], rfl, rfl⟩
  | cons c rest ih =>
    unfold pieces
    split
    · rename_i hc
      simp only [Bool.and_eq_true, decide_eq_true_eq] at hc
      obtain ⟨first, others, hp, hr⟩ := ih n
      refine ⟨[], first :: others, by rw [hp], ?_⟩
      rw [hr, hc.1]
      rfl
    · obtain ⟨first, others, hp, hr⟩ := ih (n.feed c)
      refine ⟨c :: first, others, by rw [hp], ?_⟩
      rw [hr]
      rfl

/-- Joined by commas and blanks, texts are the pieces of a signature behind commas. -/
theorem intercalate_cons (first : List Char) (others : List (List Char)) :
    ", ".toList.intercalate (first :: others) = first ++ behindCommas (others.map (' ' :: ·)) := by
  induction others generalizing first with
  | nil => simp [behindCommas]
  | cons second others ih =>
    rw [List.intercalate_cons_cons, ih]
    simp [behindCommas]

/-- Behind commas, pieces and their trimmed texts after blanks are the same only one by one. -/
theorem eq_of_behindCommas_eq {pieces args : List (List Char)} (h : args <+: pieces.map trim)
    (e : behindCommas pieces = behindCommas (args.map (' ' :: ·))) :
    pieces = args.map (' ' :: ·) := by
  induction pieces generalizing args with
  | nil =>
    obtain rfl := List.prefix_nil.1 h
    rfl
  | cons piece pieces ih =>
    cases args with
    | nil => simp [behindCommas] at e
    | cons arg args =>
      obtain ⟨rfl, rest⟩ := List.cons_prefix_cons.1 h
      have e : piece ++ behindCommas pieces =
          ' ' :: (trim piece ++ behindCommas (args.map (' ' :: ·))) := by
        simpa [behindCommas] using e
      cases piece with
      | nil =>
        have begins : (behindCommas pieces).head? = some ' ' := by
          rw [← List.nil_append (behindCommas _), e]
          rfl
        exact absurd (flush_behindCommas pieces ' ' begins) (by decide)
      | cons c piece =>
        obtain ⟨rfl, e⟩ := List.cons.inj e
        rw [trim_cons_of_isBlank (by decide)] at e ⊢
        obtain ⟨hp, e⟩ := (padded_trim piece).eq_of_append_eq (flush_trim piece)
          (flush_behindCommas _) e
        rw [List.map_cons, ← hp, ih rest e]

/-- Pieces are joined by commas to the text that their trimmed texts are joined to in a signature
exactly if they are spaced as there. -/
theorem join_eq_iff {first : List Char} {others args : List (List Char)}
    (h : args <+: (first :: others).map trim) :
    first ++ behindCommas others = ", ".toList.intercalate args ↔
      first :: others = spaced args := by
  cases args with
  | nil =>
    have none : first ++ behindCommas others = [] ↔ first :: others = [[]] := by
      cases others <;> simp [behindCommas]
    exact none
  | cons arg args =>
    rw [intercalate_cons, spaced]
    constructor
    · intro e
      obtain ⟨rfl, rest⟩ := List.cons_prefix_cons.1 h
      obtain ⟨hp, e⟩ := (padded_trim first).eq_of_append_eq (flush_trim first)
        (flush_behindCommas _) e
      rw [← hp, eq_of_behindCommas_eq rest e]
    · intro e
      obtain ⟨rfl, rfl⟩ := List.cons.inj e
      rfl

/-- The arguments are the trimmed pieces, but for a last one. -/
theorem splitArguments_prefix (body : List Char) :
    splitArguments body <+: (pieces .outside body).map trim := by
  unfold splitArguments
  dsimp only
  split
  · exact List.dropLast_prefix _
  · exact List.prefix_refl _

end Expression

namespace Call

open Expression (pieces splitArguments spaced toList_signature)

variable {text : String} {call : Call} {body : List Char}

/-- A text is written as a call with a body. -/
structure Written (call : Call) (body : List Char) (text : String) : Prop where
  trimmed : trim text.toList = call.name.toList ++ '(' :: body ++ [')']
  arguments : call.arguments.map String.toList = splitArguments body
  named : isName call.name.toList = true

/-- A name does not begin with a blank. -/
theorem isBlank_eq_false_of_isNameStart {c : Char} (h : isNameStart c = true) :
    isBlank c = false := by
  have range : 65 ≤ c.toNat ∧ c.toNat ≤ 122 := by
    have below {a b : UInt32} (hab : a ≤ b) : a.toNat ≤ b.toNat := UInt32.le_iff_toNat_le.1 hab
    rcases (Bool.or_eq_true _ _).mp h with letter | underscore
    · rcases (Bool.or_eq_true _ _).mp letter with upper | lower
      · obtain ⟨low, high⟩ := of_decide_eq_true upper
        exact ⟨below low, Nat.le_trans (below high) (by decide)⟩
      · obtain ⟨low, high⟩ := (Bool.and_eq_true _ _).mp lower
        exact ⟨Nat.le_trans (by decide) (below (of_decide_eq_true low)),
          below (of_decide_eq_true high)⟩
    · obtain rfl := of_decide_eq_true underscore
      decide
  simp only [isBlank, Bool.or_eq_false_iff, Bool.and_eq_false_iff, decide_eq_false_iff_not,
    beq_eq_false_iff_ne]
  omega

/-- There are no blanks around a name and a body between parentheses. -/
theorem trim_spelled {name : List Char} (h : isName name = true) (body : List Char) :
    trim (name ++ '(' :: body ++ [')']) = name ++ '(' :: body ++ [')'] := by
  cases name with
  | nil => simp [isName] at h
  | cons c rest =>
    rw [isName, Bool.and_eq_true] at h
    exact trim_eq_self (isBlank_eq_false_of_isNameStart h.1) (by decide)

/-- A signature has no blanks around it. -/
theorem trim_signature (h : isName call.name.toList = true) :
    trim call.signature.toList = call.signature.toList := by
  rw [toList_signature]
  exact trim_spelled h _

theorem exists_written (h : parse? text = some call) : ∃ body, Written call body text := by
  obtain ⟨⟨name, args⟩, hs, rfl⟩ := Option.map_eq_some_iff.1 h
  obtain ⟨⟨name', body⟩, hb, he⟩ := Option.map_eq_some_iff.1 hs
  obtain ⟨rfl, rfl⟩ := by simpa using he
  obtain ⟨whole, named⟩ := eq_of_span? hb
  exact ⟨body, by simpa using whole, by simp [Function.comp_def], by simpa using named⟩

/-- The signature of a call is the text that the call is written as exactly if nothing stands around
this text and its pieces are spaced as in a signature. -/
theorem Written.signature_eq_iff (h : Written call body text) :
    call.signature = text ↔
      trim text.toList = text.toList ∧
        pieces .outside body = spaced (call.arguments.map String.toList) := by
  obtain ⟨first, others, cut, joined⟩ := Expression.exists_pieces_eq_cons .outside body
  have args : call.arguments.map String.toList <+: (first :: others).map trim := by
    rw [h.arguments, ← cut]
    exact Expression.splitArguments_prefix body
  have same : trim text.toList = call.signature.toList ↔
      pieces .outside body = spaced (call.arguments.map String.toList) := by
    rw [cut, h.trimmed, toList_signature, List.append_cancel_right_eq, List.append_cancel_left_eq,
      List.cons.injEq, joined, Expression.join_eq_iff args]
    simp
  constructor
  · rintro rfl
    have around := trim_signature h.named
    exact ⟨around, same.1 around⟩
  · rintro ⟨around, spaced⟩
    rw [← String.toList_inj, ← around]
    exact (same.2 spaced).symm

end Call

end DesignTokens
