import DesignTokens.Proofs.Color.Notation
import DesignTokens.Proofs.Text.Pieces
import DesignTokens.Proofs.Text.Plain

/-!
# The ways to write a functional notation

The components of a color stand between the parentheses with commas between them or with blanks, and an
opacity comes behind a slash or as a fourth component. The name of the function may tell of an opacity
or not. None of this matters: a color is read from its components alone, and a text with another number
of them is no color.

A component is any text that has no separator inside of it, so nothing is said here of numbers.
-/

namespace DesignTokens.Color

open Text

/-- A component of a functional notation: some characters, none of which separates components. -/
structure IsComponent (s : List Char) : Prop where
  filled : s ≠ []
  solid : ∀ c ∈ s, isBlank c = false ∧ c ≠ ',' ∧ c ≠ '/'

theorem isComponent_iff {s : List Char} : IsComponent s ↔
    s ≠ [] ∧ s.all (fun c => !isBlank c && c != ',' && c != '/') = true := by
  simp only [List.all_eq_true, Bool.and_eq_true, Bool.not_eq_true', bne_iff_ne, and_assoc]
  exact ⟨fun h => ⟨h.filled, h.solid⟩, fun ⟨filled, solid⟩ => ⟨filled, solid⟩⟩

instance (s : List Char) : Decidable (IsComponent s) := decidable_of_iff _ isComponent_iff.symm

/-- The components with commas between them, and with any blanks around each. -/
def Commas (parts : List (List Char)) (s : List Char) : Prop :=
  ∃ texts, List.Forall₂ Padded parts texts ∧ texts ≠ [] ∧ s = [','].intercalate texts

/-- The components with blanks between them, at least one between two, and any around them all. -/
inductive Blanks : List (List Char) → List Char → Prop where
  | nil (blanks : List Char) (hb : ∀ c ∈ blanks, isBlank c) : Blanks [] blanks
  | cons (blanks part : List Char) {rest : List Char} {parts : List (List Char)}
    (hb : ∀ c ∈ blanks, isBlank c) (others : Blanks parts rest) (apart : ∀ c ∈ rest.head?, isBlank c) :
    Blanks (part :: parts) (blanks ++ part ++ rest)

/-- The components in one of the two styles. -/
def Listed (parts : List (List Char)) (s : List Char) : Prop := Commas parts s ∨ Blanks parts s

/-- The components, and an opacity behind a slash if there is one. -/
inductive Body (parts : List (List Char)) : Option (List Char) → List Char → Prop where
  | plain {s : List Char} (listed : Listed parts s) : Body parts none s
  | slash {s opacity text : List Char} (listed : Listed parts s) (padded : Padded opacity text) :
    Body parts (some opacity) (s ++ '/' :: text)

/-- The functions that write a color by its components. -/
inductive Family where
  | rgb
  | hsl

namespace Family

/-- The names of the function, without an opacity and with one. -/
def names : Family → List String
  | .rgb => ["rgb", "rgba"]
  | .hsl => ["hsl", "hsla"]

/-- The color of the components. -/
def color? : Family → Components → Option Rgba
  | .rgb => ofRgb?
  | .hsl => ofHsl?

end Family

/-- The text is the function of a family with some components and an opacity behind a slash. -/
inductive Written (family : Family) (parts : List (List Char)) (opacity : Option (List Char))
    (text : String) : Prop where
  | intro (name : String) (blanks : List Char) {body : List Char} (named : name ∈ family.names)
    (hb : ∀ c ∈ blanks, isBlank c) (inside : Body parts opacity body)
    (padded : Padded (name.toList ++ (blanks ++ '(' :: (body ++ [')']))) text.toList)

/-- The text writes three components and their opacity: behind a slash or as a fourth component. -/
inductive Writes (family : Family) (color : Components) (text : String) : Prop where
  | three (written : Written family [color.first, color.second, color.third] color.alpha text)
  | four {opacity : List Char} (alpha : color.alpha = some opacity)
    (written : Written family [color.first, color.second, color.third, opacity] none text)

variable {s t body : List Char} {parts : List (List Char)} {opacity : Option (List Char)} {c : Char}

section LowerCase

/-- A character that separates nothing separates nothing in lower case: it is itself or a letter. -/
theorem solid_toLower (h : isBlank c = false ∧ c ≠ ',' ∧ c ≠ '/') :
    isBlank c.toLower = false ∧ c.toLower ≠ ',' ∧ c.toLower ≠ '/' := by
  have cases : c.toLower = c ∨ isLetter c.toLower = true := by
    grind [Char.toLower, isLetter, Char.isAlpha, Char.isUpper, Char.isLower]
  rcases cases with same | letter
  · rwa [same]
  · have plain := isPlain_of_isLetter letter
    simp only [isPlain, Bool.and_eq_true, Bool.not_eq_true'] at plain
    refine ⟨plain.1.1, ?_, ?_⟩ <;>
    · intro mark
      rw [mark] at letter
      cases letter

theorem blank_map_toLower (h : ∀ c ∈ s, isBlank c) : ∀ c ∈ s.map Char.toLower, isBlank c := by
  intro c hc
  obtain ⟨c, mem, rfl⟩ := List.mem_map.1 hc
  rw [toLower_of_isBlank (h c mem)]
  exact h c mem

theorem padded_map_toLower (h : Padded s t) : Padded (s.map Char.toLower) (t.map Char.toLower) := by
  obtain ⟨before, after, rfl, hb, ha⟩ := h
  exact ⟨_, _, by rw [List.map_append, List.map_append], blank_map_toLower hb, blank_map_toLower ha⟩

theorem IsComponent.map_toLower (h : IsComponent s) : IsComponent (s.map Char.toLower) where
  filled := by simpa using h.filled
  solid c hc := by
    obtain ⟨c, mem, rfl⟩ := List.mem_map.1 hc
    exact solid_toLower (h.solid c mem)

theorem map_toLower_intercalate (texts : List (List Char)) :
    ([','].intercalate texts).map Char.toLower =
      [','].intercalate (texts.map (·.map Char.toLower)) := by
  have comma : ','.toLower = ',' := by decide
  cases texts with
  | nil => rfl
  | cons first others =>
    rw [List.map_cons, intercalate_singleton_cons, intercalate_singleton_cons, List.map_append,
      List.map_flatMap, List.flatMap_map]
    simp only [List.map_cons, comma]

theorem Commas.map_toLower (h : Commas parts s) :
    Commas (parts.map (·.map Char.toLower)) (s.map Char.toLower) := by
  obtain ⟨texts, padded, filled, rfl⟩ := h
  refine ⟨texts.map (·.map Char.toLower), ?_, by simpa using filled, ?_⟩
  · rw [List.forall₂_map_left_iff, List.forall₂_map_right_iff]
    exact padded.imp fun _ _ => padded_map_toLower
  · exact map_toLower_intercalate texts

theorem Blanks.map_toLower (h : Blanks parts s) :
    Blanks (parts.map (·.map Char.toLower)) (s.map Char.toLower) := by
  induction h with
  | nil blanks hb => exact .nil _ (blank_map_toLower hb)
  | cons blanks part hb others apart ih =>
    rw [List.map_append, List.map_append]
    refine .cons _ _ (blank_map_toLower hb) ih fun c hc => ?_
    rw [List.head?_map] at hc
    obtain ⟨d, first, rfl⟩ := Option.map_eq_some_iff.1 hc
    rw [toLower_of_isBlank (apart d first)]
    exact apart d first

theorem Listed.map_toLower (h : Listed parts s) :
    Listed (parts.map (·.map Char.toLower)) (s.map Char.toLower) :=
  h.imp Commas.map_toLower Blanks.map_toLower

/-- A body in lower case has its components in lower case. -/
theorem Body.map_toLower (h : Body parts opacity body) :
    Body (parts.map (·.map Char.toLower)) (opacity.map (·.map Char.toLower))
      (body.map Char.toLower) := by
  cases h with
  | plain listed => exact .plain listed.map_toLower
  | slash listed padded =>
    rw [List.map_append, List.map_cons]
    exact .slash listed.map_toLower (padded_map_toLower padded)

end LowerCase

section Separated

theorem IsComponent.trim_eq (h : IsComponent s) : trim s = s :=
  trim_of_solid fun c hc => (h.solid c hc).1

/-- There is no separator inside of a component or of the blanks around it. -/
theorem IsComponent.notMem (h : IsComponent s) (hs : Padded s t) (mark : c = ',' ∨ c = '/') : c ∉ t := by
  intro hc
  rcases hs.mem_or_isBlank hc with inside | blank
  · obtain ⟨-, comma, slash⟩ := h.solid c inside
    exact mark.elim comma slash
  · rcases mark with rfl | rfl <;> cases blank

variable (hp : ∀ part ∈ parts, IsComponent part)

include hp

/-- Padded components are pieces between separators, and are trimmed to what they were. -/
theorem pieces_of_padded {texts : List (List Char)} (padded : List.Forall₂ Padded parts texts) :
    (∀ text ∈ texts, ',' ∉ text ∧ '/' ∉ text) ∧ texts.map trim = parts := by
  induction padded with
  | nil => simp
  | cons first _ ih =>
    obtain ⟨component, others⟩ := List.forall_mem_cons.1 hp
    obtain ⟨pieces, trimmed⟩ := ih others
    refine ⟨List.forall_mem_cons.2 ⟨?_, pieces⟩, ?_⟩
    · exact ⟨component.notMem first (.inl rfl), component.notMem first (.inr rfl)⟩
    · rw [List.map_cons, trim_eq_of_padded first, component.trim_eq, trimmed]

/-- What `components?` finds before the slash. -/
theorem Commas.pieces (h : Commas parts s) :
    '/' ∉ s ∧ (if s.contains ',' then (splitAt ',' s).map trim else words s) = parts := by
  obtain ⟨texts, padded, filled, rfl⟩ := h
  obtain ⟨pieces, trimmed⟩ := pieces_of_padded hp padded
  obtain ⟨first, others, rfl⟩ := List.exists_cons_of_ne_nil filled
  obtain ⟨⟨comma, slash⟩, rest⟩ := List.forall_mem_cons.1 pieces
  rw [intercalate_singleton_cons]
  constructor
  · simp only [List.mem_append, List.mem_flatMap, List.mem_cons, not_or, not_exists, not_and]
    exact ⟨slash, fun text ht => ⟨by decide, (rest text ht).2⟩⟩
  · cases others with
    | nil =>
      -- a single component has no comma behind it, and is the only word
      obtain ⟨part, rfl⟩ : ∃ part, parts = [part] := ⟨trim first, by simpa using trimmed.symm⟩
      obtain ⟨before, after, rfl, hb, ha⟩ := (List.forall₂_cons.1 padded).1
      have component := hp part (by simp)
      have apart : ∀ c ∈ after.head?, isBlank c := fun c hc => ha c (List.mem_of_mem_head? hc)
      rw [List.flatMap_nil, List.append_nil, if_neg (by simpa using comma),
        words_append hb (fun c hc => (component.solid c hc).1) component.filled apart,
        words_of_blanks ha]
    | cons second others =>
      rw [if_pos (by simp), splitAt_flatMap comma fun text ht => (rest text ht).1]
      exact trimmed

theorem Blanks.pieces (h : Blanks parts s) :
    '/' ∉ s ∧ (if s.contains ',' then (splitAt ',' s).map trim else words s) = parts := by
  have separate : (',' ∉ s ∧ '/' ∉ s) ∧ words s = parts := by
    induction h with
    | nil blanks hb =>
      have mark {c : Char} (hc : isBlank c = false) : c ∉ _ := fun mem => by
        rw [hb c mem] at hc
        cases hc
      exact ⟨⟨mark rfl, mark rfl⟩, words_of_blanks hb⟩
    | cons blanks part hb others apart ih =>
      obtain ⟨first, next⟩ := List.forall_mem_cons.1 hp
      obtain ⟨⟨comma, slash⟩, split⟩ := ih next
      have padded : Padded part (blanks ++ part) := ⟨blanks, [], by simp, hb, by simp⟩
      refine ⟨⟨?_, ?_⟩, ?_⟩
      · exact List.mem_append.not.2 (not_or.2 ⟨first.notMem padded (.inl rfl), comma⟩)
      · exact List.mem_append.not.2 (not_or.2 ⟨first.notMem padded (.inr rfl), slash⟩)
      · rw [words_append hb (fun c hc => (first.solid c hc).1) first.filled apart, split]
  obtain ⟨⟨comma, slash⟩, split⟩ := separate
  exact ⟨slash, by rw [if_neg (by simpa using comma), split]⟩

theorem Listed.pieces (h : Listed parts s) :
    '/' ∉ s ∧ (if s.contains ',' then (splitAt ',' s).map trim else words s) = parts :=
  h.elim (Commas.pieces hp) (Blanks.pieces hp)

/-- The components and the opacity that some parts and what stands behind the slash come to. -/
def gather : List (List Char) → Option (List Char) → Option Components
  | [a, b, c], opacity => some ⟨a, b, c, opacity⟩
  | [a, b, c, d], none => some ⟨a, b, c, some d⟩
  | _, _ => none

/-- The components are found whichever way they are written. -/
theorem Body.components?_eq (h : Body parts opacity body) (ho : ∀ d ∈ opacity, IsComponent d) :
    components? body = gather parts opacity := by
  cases h with
  | plain listed =>
    obtain ⟨slash, split⟩ := listed.pieces hp
    rw [components?, cut?_of_notMem slash]
    dsimp only
    rw [split]
    rfl
  | slash listed padded =>
    obtain ⟨slash, split⟩ := listed.pieces hp
    rw [components?, cut?_append slash]
    dsimp only
    rw [split, trim_eq_of_padded padded, (ho _ rfl).trim_eq]
    rfl

end Separated

section Reading

variable {family : Family} {text : String} {blanks : List Char}

/-- The text between the parentheses is that of a function of the family, whichever name it has. -/
theorem read?_function {name : String} (named : name ∈ family.names) (hb : ∀ c ∈ blanks, isBlank c)
    (body : List Char) : read? (name.toList ++ (blanks ++ '(' :: (body ++ [')']))) =
      components? body >>= family.color? := by
  have opens : trimStart (blanks ++ '(' :: (body ++ [')'])) = '(' :: (body ++ [')']) := by
    rw [trimStart, List.dropWhile_append_of_pos hb]
    rfl
  have last : beforeLast? ')' (body ++ [')']) = some body := beforeLast?_eq_some_iff.2 rfl
  have letter (rest : List Char) : trimStart ('a' :: rest) = 'a' :: rest := rfl
  cases family <;>
  · simp only [Family.names, List.mem_cons, List.not_mem_nil, or_false] at named
    rcases named with rfl | rfl <;>
    simp [read?, body?, List.findSome?, afterStart?, opens, last, letter, Family.color?]

/-- Blanks around a function are taken off, and its name and its blanks are the same in lower case. -/
theorem parse?_written {parts : List (List Char)} {opacity : Option (List Char)}
    (h : Written family parts opacity text) (hp : ∀ part ∈ parts, IsComponent part)
    (ho : ∀ d ∈ opacity, IsComponent d) :
    parse? text = gather (parts.map (·.map Char.toLower)) (opacity.map (·.map Char.toLower)) >>=
      family.color? := by
  obtain @⟨name, blanks, body, named, hb, inside, padded⟩ := h
  have spelling : ∀ name ∈ family.names, Bare name.toList ∧ name.toList.map Char.toLower = name.toList := by
    cases family <;> decide
  obtain ⟨bare, lower⟩ := spelling name named
  have marks : '('.toLower = '(' ∧ ')'.toLower = ')' := by decide
  have blank : blanks.map Char.toLower = blanks := by
    rw [List.map_congr_left fun c hc => toLower_of_isBlank (hb c hc), List.map_id']
  have inner : (unquote text.toList).map Char.toLower =
      name.toList ++ (blanks ++ '(' :: (body.map Char.toLower ++ [')'])) := by
    rw [unquote_eq_of_padded padded, unquote_of_bare (bare_function bare blanks body)]
    simp only [List.map_append, List.map_cons, List.map_nil, lower, blank, marks]
  have parts : ∀ part ∈ parts.map (·.map Char.toLower), IsComponent part :=
    List.forall_mem_map.2 fun part mem => (hp part mem).map_toLower
  have behind : ∀ d ∈ opacity.map (·.map Char.toLower), IsComponent d := by
    rintro d hd
    obtain ⟨d, mem, rfl⟩ := Option.map_eq_some_iff.1 hd
    exact (ho d mem).map_toLower
  rw [parse?, inner, read?_function named hb, inside.map_toLower.components?_eq parts behind]

/-- Components whose letters are in lower case. -/
def Components.lower (color : Components) : Components :=
  ⟨color.first.map Char.toLower, color.second.map Char.toLower, color.third.map Char.toLower,
    color.alpha.map (·.map Char.toLower)⟩

/-- The components of a color, and its opacity, have no separators inside. -/
structure Components.Sound (color : Components) : Prop where
  parts : ∀ part ∈ [color.first, color.second, color.third], IsComponent part
  alpha : ∀ d ∈ color.alpha, IsComponent d

theorem Components.sound_iff {color : Components} : color.Sound ↔
    (∀ part ∈ [color.first, color.second, color.third], IsComponent part) ∧
      ∀ d ∈ color.alpha, IsComponent d :=
  ⟨fun ⟨parts, alpha⟩ => ⟨parts, alpha⟩, fun ⟨parts, alpha⟩ => ⟨parts, alpha⟩⟩

instance (color : Components) : Decidable color.Sound := decidable_of_iff _ color.sound_iff.symm

/-- A color is read from its components in lower case. -/
theorem parse?_writes {color : Components} (hc : color.Sound) (h : Writes family color text) :
    parse? text = family.color? color.lower := by
  cases h with
  | three written => rw [parse?_written written hc.parts hc.alpha]; rfl
  | @four opacity alpha written =>
    have all : ∀ part ∈ [color.first, color.second, color.third, opacity], IsComponent part := by
      have parts := hc.parts
      simp only [List.forall_mem_cons] at parts ⊢
      exact ⟨parts.1, parts.2.1, parts.2.2.1, hc.alpha opacity alpha, by simp⟩
    rw [parse?_written written all nofun, Components.lower, alpha]
    rfl

theorem gather_eq_none {parts : List (List Char)} {opacity : Option (List Char)}
    (h : ¬ (parts.length = 3 ∨ parts.length = 4 ∧ opacity = none)) : gather parts opacity = none := by
  unfold gather
  split
  · simp at h
  · simp at h
  · rfl

end Reading

/-- A color in a functional notation is the same, or is none, whichever name its function has, whether
commas or blanks separate its components, and wherever its opacity stands; another number of components
is none. -/
theorem functional_interchangeable (family : Family) :
    (∀ color : Components, color.Sound → ∀ s t, Writes family color s → Writes family color t →
      parse? s = parse? t ∧ parse? s = family.color? color.lower) ∧
      ∀ parts opacity text, (∀ part ∈ parts, IsComponent part) → (∀ d ∈ opacity, IsComponent d) →
        Written family parts opacity text →
          ¬ (parts.length = 3 ∨ parts.length = 4 ∧ opacity = none) → parse? text = none := by
  constructor
  · intro color hc s t hs ht
    have first := parse?_writes hc hs
    exact ⟨first.trans (parse?_writes hc ht).symm, first⟩
  · intro parts opacity text hp ho written other
    rw [parse?_written written hp ho, gather_eq_none (by simpa using other)]
    rfl

/-- With the opacity after a comma and behind a slash, and with one component too many before it. -/
theorem functional_interchangeable_half :
    (Components.Sound ⟨"10%".toList, "20".toList, "30".toList, some ".5".toList⟩ ∧
      Writes .rgb ⟨"10%".toList, "20".toList, "30".toList, some ".5".toList⟩ "rgb(10%, 20, 30, .5)" ∧
      Writes .rgb ⟨"10%".toList, "20".toList, "30".toList, some ".5".toList⟩ "rgba( 10%  20 30/.5)") ∧
      parse? "rgb(10%, 20, 30, .5)" = parse? "rgba( 10%  20 30/.5)" ∧
      parse? "rgb(10%, 20, 30, .5/ .5)" = none := by
  have component {s : List Char}
      (h : s ≠ [] ∧ s.all (fun c => !isBlank c && c != ',' && c != '/') = true) : IsComponent s :=
    ⟨h.1, fun c hc => by simpa [and_assoc] using List.all_eq_true.1 h.2 c hc⟩
  have sound : Components.Sound ⟨"10%".toList, "20".toList, "30".toList, some ".5".toList⟩ := by
    refine ⟨?_, ?_⟩
    · simp only [List.forall_mem_cons, List.not_mem_nil, false_imp_iff, implies_true, and_true]
      exact ⟨component (by decide), component (by decide), component (by decide)⟩
    · rintro d ⟨⟩
      exact component (by decide)
  have blank (s : List Char) : Padded s (' ' :: s) := ⟨[' '], [], by simp, by simp [isBlank], by simp⟩
  have commas : Commas ["10%".toList, "20".toList, "30".toList, ".5".toList] "10%, 20, 30, .5".toList :=
    ⟨["10%".toList, " 20".toList, " 30".toList, " .5".toList],
      .cons (.refl _) (.cons (blank _) (.cons (blank _) (.cons (blank _) .nil))), by simp, by decide⟩
  have blanks : Blanks ["10%".toList, "20".toList, "30".toList] " 10%  20 30".toList :=
    .cons [' '] _ (by simp [isBlank])
      (.cons [' ', ' '] _ (by simp [isBlank])
        (.cons [' '] _ (by simp [isBlank]) (.nil [] (by simp)) (by simp)) (by rintro _ ⟨⟩; rfl))
      (by rintro _ ⟨⟩; rfl)
  have first : Writes .rgb ⟨"10%".toList, "20".toList, "30".toList, some ".5".toList⟩
      "rgb(10%, 20, 30, .5)" :=
    .four rfl (.intro "rgb" [] (by decide) (by simp) (.plain (.inl commas)) (.refl _))
  have second : Writes .rgb ⟨"10%".toList, "20".toList, "30".toList, some ".5".toList⟩
      "rgba( 10%  20 30/.5)" :=
    .three (.intro "rgba" [] (by decide) (by simp) (.slash (.inr blanks) (.refl _)) (.refl _))
  have five : Written .rgb ["10%".toList, "20".toList, "30".toList, ".5".toList] (some ".5".toList)
      "rgb(10%, 20, 30, .5/ .5)" :=
    .intro "rgb" [] (by decide) (by simp) (.slash (.inl commas) (blank _)) (.refl _)
  have parts : ∀ part ∈ ["10%".toList, "20".toList, "30".toList, ".5".toList], IsComponent part := by
    simp only [List.forall_mem_cons, List.not_mem_nil, false_imp_iff, implies_true, and_true]
    exact ⟨component (by decide), component (by decide), component (by decide), component (by decide)⟩
  obtain ⟨same, refused⟩ := functional_interchangeable .rgb
  exact ⟨⟨sound, first, second⟩, (same _ sound _ _ first second).1,
    refused _ _ _ parts sound.alpha five (by simp)⟩

end DesignTokens.Color
