import DesignTokens.Expression.Nesting
import DesignTokens.Proofs.Text.Padding

/-!
# What stands outside quotes

`Bare s v` says which characters of a text stand outside quotes, without a scan: it takes the quoted
runs out of the text, each up to the next quote of the same kind.

Scans agree with this. What is open after a text is what its bare characters leave open, where
parentheses and braces are counted, and a scan meets a character in a text where it meets it among the
bare characters. What is open where a scan meets a character is spoken of by `Nesting.AtEach`.
-/

namespace DesignTokens.Expression

open Text

/-- The characters that begin a quoted run; the next one of the same kind ends it. -/
def isQuote (c : Char) : Bool := c = '\'' || c = '"'

/-- The bare characters of a text are those outside quotes, the quotes themselves left out. A text in
which a quoted run is left open has none. -/
inductive Bare : List Char → List Char → Prop
  | nil : Bare [] []
  | char {c : Char} {s v : List Char} (hc : isQuote c = false) (h : Bare s v) :
      Bare (c :: s) (c :: v)
  | quoted {q : Char} {run s v : List Char} (hq : isQuote q = true) (hr : q ∉ run) (h : Bare s v) :
      Bare (q :: run ++ q :: s) v

/-- A counter of open brackets that stops at zero. -/
def depth (opening closing : Char) (k : Nat) (v : List Char) : Nat :=
  v.foldl (fun k c => if c = opening then k + 1 else if c = closing then k - 1 else k) k

namespace Nesting

variable {n : Nesting} {c d : Char} {P : Nesting → Prop} {s t v : List Char}

@[simp] theorem feedAll_nil (n : Nesting) : n.feedAll [] = n := rfl

@[simp] theorem feedAll_cons (n : Nesting) (c : Char) (s : List Char) :
    n.feedAll (c :: s) = (n.feed c).feedAll s := rfl

@[simp] theorem feedAll_append (n : Nesting) (s t : List Char) :
    n.feedAll (s ++ t) = (n.feedAll s).feedAll t := List.foldl_append

/-- Wherever `c` stands in a text outside quotes, `P` holds of what is open there. -/
def AtEach (n : Nesting) (c : Char) (P : Nesting → Prop) (s : List Char) : Prop :=
  ∀ before after, s = before ++ c :: after → (n.feedAll before).quote = none →
    P (n.feedAll before)

/-- A text closes no parenthesis that is not open. -/
def Covers (n : Nesting) (s : List Char) : Prop := n.AtEach ')' (fun m => 0 < m.parens) s

/-- A text is not cut at any of its commas. -/
def Solid (n : Nesting) (s : List Char) : Prop := n.AtEach ',' (fun m => m.isOutside = false) s

theorem atEach_nil (n : Nesting) (c : Char) (P : Nesting → Prop) : n.AtEach c P [] := by
  intro before after h
  simp at h

theorem atEach_cons :
    n.AtEach c P (d :: s) ↔ (d = c → n.quote = none → P n) ∧ (n.feed d).AtEach c P s := by
  constructor
  · intro h
    refine ⟨?_, ?_⟩
    · rintro rfl
      exact h [] s rfl
    · rintro before after rfl
      exact h (d :: before) after rfl
  · rintro ⟨first, rest⟩ before after h
    cases before with
    | nil =>
      obtain ⟨rfl, -⟩ := List.cons.inj h
      exact first rfl
    | cons d' before =>
      obtain ⟨rfl, rfl⟩ := List.cons.inj h
      exact rest before after rfl

theorem atEach_append :
    n.AtEach c P (s ++ t) ↔ n.AtEach c P s ∧ (n.feedAll s).AtEach c P t := by
  induction s generalizing n with
  | nil => simp [atEach_nil]
  | cons d s ih => rw [List.cons_append, atEach_cons, atEach_cons, ih, and_assoc, feedAll_cons]

/-- Where `c` does not stand there is nothing to see. -/
theorem atEach_of_notMem (h : c ∉ s) : n.AtEach c P s := by
  rintro before after rfl
  simp at h

section Proper

/-- The quote that is open, if one is, is a quote. -/
def Proper (n : Nesting) : Prop := ∀ q ∈ n.quote, isQuote q = true

theorem proper_outside : outside.Proper := by simp [Proper, outside]

theorem Proper.of_quote (h : n.quote = none) : n.Proper := by simp [Proper, h]

theorem feed_of_quote {q : Char} (h : n.quote = some q) (c : Char) :
    n.feed c = if c = q then { n with quote := none } else n := by
  simp [feed, h]

theorem feed_of_isQuote (h : n.quote = none) (hc : isQuote c = true) :
    n.feed c = { n with quote := some c } := by
  have hc : c = '\'' ∨ c = '"' := by simpa [isQuote] using hc
  simp [feed, h, hc]

/-- Outside quotes a character that is no quote is counted if it is a bracket. -/
theorem feed_of_not_isQuote (h : n.quote = none) (hc : isQuote c = false) :
    n.feed c =
      ⟨depth '(' ')' n.parens [c], depth '{' '}' n.braces [c], none⟩ := by
  have hc : ¬ (c = '\'' ∨ c = '"') := by simpa [isQuote] using hc
  obtain ⟨parens, braces, quote⟩ := n
  obtain rfl : quote = none := h
  simp only [feed, Bool.or_eq_true, decide_eq_true_eq, hc, ↓reduceIte, depth, List.foldl_cons,
    List.foldl_nil]
  split
  · simp_all
  · split
    · simp_all
    · split
      · simp_all
      · split <;> simp_all

theorem Proper.feed (h : n.Proper) (c : Char) : (n.feed c).Proper := by
  cases hn : n.quote with
  | some q =>
    rw [feed_of_quote hn]
    split
    · exact .of_quote rfl
    · exact h
  | none =>
    by_cases hc : isQuote c = true
    · rw [feed_of_isQuote hn hc]
      simpa [Proper] using hc
    · rw [feed_of_not_isQuote hn (by simpa using hc)]
      exact .of_quote rfl

theorem Proper.feedAll (h : n.Proper) (s : List Char) : (n.feedAll s).Proper := by
  induction s generalizing n with
  | nil => exact h
  | cons c s ih => exact ih (h.feed c)

end Proper

section Plain

/-- Whether a character is a bracket or a quote. -/
def isStructural (c : Char) : Bool :=
  isQuote c || c = '(' || c = ')' || c = '{' || c = '}'

theorem isStructural_of_isBlank (h : isBlank c) : isStructural c = false := by
  apply Bool.eq_false_iff.2
  intro hs
  simp only [isStructural, isQuote, Bool.or_eq_true, decide_eq_true_eq] at hs
  rcases hs with ((((rfl | rfl) | rfl) | rfl) | rfl) | rfl
  all_goals revert h; decide

/-- What is neither a bracket nor a quote leaves things as they are, inside quotes or outside. -/
theorem feed_of_not_isStructural (hn : n.Proper) (hc : isStructural c = false) : n.feed c = n := by
  simp only [isStructural, Bool.or_eq_false_iff, decide_eq_false_iff_not] at hc
  cases hq : n.quote with
  | some q =>
    rw [feed_of_quote hq, if_neg]
    rintro rfl
    simp [hn c hq] at hc
  | none =>
    obtain ⟨parens, braces, quote⟩ := n
    obtain rfl : quote = none := hq
    rw [feed_of_not_isQuote rfl hc.1.1.1.1]
    simp [depth, hc]

theorem feedAll_of_not_isStructural (hn : n.Proper) (hs : ∀ c ∈ s, isStructural c = false) :
    n.feedAll s = n := by
  induction s with
  | nil => rfl
  | cons c s ih =>
    rw [feedAll_cons, feed_of_not_isStructural hn (hs c (by simp))]
    exact ih fun d hd => hs d (List.mem_cons_of_mem c hd)

variable {inner text : List Char}

/-- Blanks around a text leave things as they are. -/
theorem feedAll_of_padded (hn : n.Proper) (h : Padded inner text) :
    n.feedAll text = n.feedAll inner := by
  obtain ⟨before, after, rfl, hb, ha⟩ := h
  have hb : n.feedAll before = n :=
    feedAll_of_not_isStructural hn fun c hc => isStructural_of_isBlank (hb c hc)
  rw [feedAll_append, feedAll_append, hb]
  exact feedAll_of_not_isStructural (hn.feedAll inner) fun c hc => isStructural_of_isBlank (ha c hc)

theorem atEach_of_padded (hn : n.Proper) (h : Padded inner text) (hc : isBlank c = false) :
    n.AtEach c P text ↔ n.AtEach c P inner := by
  obtain ⟨before, after, rfl, hb, ha⟩ := h
  have none {m : Nesting} {s : List Char} (hs : ∀ d ∈ s, isBlank d) : m.AtEach c P s := by
    apply atEach_of_notMem
    intro hm
    simpa [hc] using hs c hm
  have hb' : n.feedAll before = n :=
    feedAll_of_not_isStructural hn fun c hc => isStructural_of_isBlank (hb c hc)
  rw [atEach_append, atEach_append, hb']
  simp [none hb, none ha]

end Plain

section Run

variable {q : Char} {run : List Char}

/-- Nothing counts inside a quoted run. -/
theorem feedAll_run (hn : n.quote = some q) (hr : q ∉ run) : n.feedAll run = n := by
  induction run with
  | nil => rfl
  | cons c run ih =>
    simp only [List.mem_cons, not_or] at hr
    rw [feedAll_cons, feed_of_quote hn, if_neg (Ne.symm hr.1), ih hr.2]

/-- A quoted run leaves things as they are. -/
theorem feedAll_quoted (hn : n.quote = none) (hq : isQuote q = true) (hr : q ∉ run) :
    n.feedAll (q :: run ++ q :: s) = n.feedAll s := by
  obtain ⟨parens, braces, quote⟩ := n
  obtain rfl : quote = none := hn
  rw [List.cons_append, feedAll_cons, feed_of_isQuote rfl hq, feedAll_append, feedAll_run rfl hr,
    feedAll_cons, feed_of_quote rfl, if_pos rfl]

/-- Nothing is met inside a quoted run. -/
theorem atEach_run (hn : n.quote = some q) (hr : q ∉ run) : n.AtEach c P run := by
  rintro before after rfl bare
  rw [feedAll_run hn fun hb => hr (by simp [hb]), hn] at bare
  simp at bare

theorem atEach_quoted (hn : n.quote = none) (hq : isQuote q = true) (hr : q ∉ run)
    (hc : isQuote c = false) : n.AtEach c P (q :: run ++ q :: s) ↔ n.AtEach c P s := by
  have ne : q ≠ c := by
    rintro rfl
    simp [hq] at hc
  obtain ⟨parens, braces, quote⟩ := n
  obtain rfl : quote = none := hn
  rw [List.cons_append, atEach_cons, feed_of_isQuote rfl hq, atEach_append, feedAll_run rfl hr,
    atEach_cons, feed_of_quote rfl, if_pos rfl]
  have inside : AtEach ⟨parens, braces, some q⟩ c P run := atEach_run rfl hr
  simp [ne, inside]

end Run

end Nesting

section Bare

variable {n : Nesting} {c : Char} {P : Nesting → Prop} {s v : List Char}

/-- Bare characters are no quotes. -/
theorem Bare.isQuote_eq_false (h : Bare s v) : ∀ c ∈ v, isQuote c = false := by
  induction h with
  | nil => simp
  | char hc _ ih => simpa [hc] using ih
  | quoted _ _ _ ih => exact ih

theorem isQuote_eq_false_of_any (h : s.any isQuote = false) : ∀ c ∈ s, isQuote c = false := by
  simpa using h

/-- A text without quotes is bare. -/
theorem bare_self (h : ∀ c ∈ s, isQuote c = false) : Bare s s := by
  induction s with
  | nil => exact .nil
  | cons c s ih => exact .char (h c (by simp)) (ih fun d hd => h d (List.mem_cons_of_mem c hd))

/-- What is open after a text is what its bare characters leave open. -/
theorem Bare.feedAll (h : Bare s v) (hn : n.quote = none) : n.feedAll s = n.feedAll v := by
  induction h generalizing n with
  | nil => rfl
  | char hc _ ih =>
    rw [Nesting.feedAll_cons, Nesting.feedAll_cons]
    apply ih
    rw [Nesting.feed_of_not_isQuote hn hc]
  | quoted hq hr _ ih => rw [Nesting.feedAll_quoted hn hq hr, ih hn]

/-- A scan meets in a text what it meets in the bare characters of the text. -/
theorem Bare.atEach (h : Bare s v) (hn : n.quote = none) (hc : isQuote c = false) :
    n.AtEach c P s ↔ n.AtEach c P v := by
  induction h generalizing n with
  | nil => rfl
  | char hd _ ih =>
    rw [Nesting.atEach_cons, Nesting.atEach_cons, ih]
    rw [Nesting.feed_of_not_isQuote hn hd]
  | quoted hq hr _ ih => rw [Nesting.atEach_quoted hn hq hr hc, ih hn]

/-- A text that leaves no quote open has bare characters, also behind a quote that is open. -/
theorem exists_bare (hn : n.Proper) (h : (n.feedAll s).quote = none) :
    ∃ v, Bare (n.quote.toList ++ s) v := by
  induction s generalizing n with
  | nil =>
    have h : n.quote = none := h
    exact ⟨[], by simpa [h] using Bare.nil⟩
  | cons c s ih =>
    obtain ⟨v, hv⟩ := ih (hn.feed c) h
    cases hq : n.quote with
    | none =>
      by_cases hc : isQuote c = true
      · rw [Nesting.feed_of_isQuote hq hc] at hv
        exact ⟨v, hv⟩
      · rw [Nesting.feed_of_not_isQuote hq (by simpa using hc)] at hv
        exact ⟨c :: v, .char (by simpa using hc) hv⟩
    | some q =>
      have quote := hn q hq
      rw [Nesting.feed_of_quote hq] at hv
      split at hv
      · rename_i hc
        subst hc
        have empty : c ∉ [] := List.not_mem_nil
        exact ⟨v, .quoted quote empty hv⟩
      · rename_i hc
        -- the run that is open goes on over `c`
        rw [hq] at hv
        generalize ho : (some q).toList ++ s = text at hv
        cases hv with
        | nil => simp at ho
        | char hd _ =>
          obtain ⟨rfl, -⟩ := List.cons.inj ho
          simp [quote] at hd
        | @quoted _ run _ _ _ hr hv =>
          obtain ⟨rfl, rfl⟩ := List.cons.inj ho
          have longer : q ∉ c :: run := by simp [Ne.symm hc, hr]
          exact ⟨v, .quoted quote longer hv⟩

/-- Over bare characters a scan counts parentheses and braces. -/
theorem Nesting.feedAll_of_not_isQuote (hn : n.quote = none) (hv : ∀ c ∈ v, isQuote c = false) :
    n.feedAll v = ⟨depth '(' ')' n.parens v, depth '{' '}' n.braces v, none⟩ := by
  induction v generalizing n with
  | nil =>
    obtain ⟨parens, braces, quote⟩ := n
    obtain rfl : quote = none := hn
    rfl
  | cons c v ih =>
    have first := feed_of_not_isQuote hn (hv c (by simp))
    rw [feedAll_cons, ih (by rw [first]) fun d hd => hv d (List.mem_cons_of_mem c hd), first]
    rfl

end Bare

end DesignTokens.Expression
