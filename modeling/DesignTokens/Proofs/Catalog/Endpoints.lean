import DesignTokens.Catalog.ColorFunctions
import DesignTokens.Proofs.Binary64.Clamp
import DesignTokens.Proofs.Catalog.Arguments
import DesignTokens.Proofs.Color.Hexadecimal

/-!
# Colors that are not moved

At either end of its way a mixture is the color that stands there, and the middle of a palette is its
base color. These colors are not taken through perceptual coordinates and back: they are written as they
are read. So a color in hexadecimal digits comes back as its own digits in their canonical form.
-/

namespace DesignTokens

open Text Binary64

namespace Arguments

variable {args : Arguments} {position : ℕ} {text : String} {r : Float}

/-- What is read as an amount is read so without its quotes, if there are any. -/
theorem readAmount_unquoted (h : readAmount text = .ok r) :
    readAmount (unquoted text) = .ok r ∧ unquoted text ≠ "" := by
  have parsed : ∃ d, Dimension.parse? text = some d := by
    rw [readAmount, readDimension] at h
    split at h
    · rename_i d parsed
      exact ⟨d, parsed⟩
    · cases h
  obtain ⟨d, parsed⟩ := parsed
  have bare := Dimension.parse?_unquoted parsed
  constructor
  · simp only [readAmount, readDimension, parsed, bind, Except.bind] at h
    simp only [readAmount, readDimension, bare, bind, Except.bind]
    split_ifs at h ⊢
    · exact h
    · exact h
  · intro empty
    rw [empty] at bare
    cases bare

theorem amount_eq_of_readAmount (h : args.texts[position]? = some text) (hr : readAmount text = .ok r)
    (name : String) : args.amount position name = .ok r := by
  obtain ⟨read, filled⟩ := readAmount_unquoted hr
  simp only [amount, required, optional?_eq h filled, bind, Except.bind, read]

theorem orElse_eq_of_readAmount (h : args.texts[position]? = some text) (hr : readAmount text = .ok r)
    (absent : Float) : args.orElse position absent readAmount = .ok r := by
  obtain ⟨read, filled⟩ := readAmount_unquoted hr
  simp only [orElse, optional?_eq h filled, read]

end Arguments

namespace ColorFunctions

open ColorDigits

variable {text other amount : String} {c d : Rgba} {r : Float} {settings : Settings}

section Ends

/-- Nothing of the way leaves the color where it is. -/
theorem mixToward_of_le (target : Rgba) (h : r ≤ 0) : mixToward c target r = c.toHex := by
  have order : (0 : Float) ≤ 1 := by decide
  obtain ⟨below, above⟩ := clamp_of_le order h
  rw [mixToward, if_pos (beq_of_le_of_le below above)]

variable (hc : Color.parse? text = some c)

include hc

/-- The middle of the palette is the base color. -/
theorem colorScale_base : colorScale ⟨[text, "500"]⟩ settings = .ok c.toHex := by
  have color : (Arguments.mk [text, "500"]).color 0 "color" = .ok c :=
    Arguments.color_eq_of_parse? rfl hc
  have plain : unquoted "500" = "500" := by decide +kernel
  have second : (Arguments.mk [text, "500"]).optional? 1 = some "500" := by
    rw [Arguments.optional?_eq rfl (by simp [plain]), plain]
  have base : Decimal.readNat? Decimal.maxWord32 "500".toList = some baseStep := by decide
  simp only [colorScale, color, Arguments.required, second, bind, Except.bind, base, if_true]
  rfl

variable (hr : Arguments.readAmount amount = .ok r)

include hr

theorem color_and_amount : (Arguments.mk [text, amount]).color 0 "color" = .ok c ∧
    (Arguments.mk [text, amount]).amount 1 "amount" = .ok r :=
  ⟨Arguments.color_eq_of_parse? rfl hc, Arguments.amount_eq_of_readAmount rfl hr "amount"⟩

theorem tint_of_le (h : r ≤ 0) : tint ⟨[text, amount]⟩ settings = .ok c.toHex := by
  obtain ⟨color, share⟩ := color_and_amount hc hr
  simp only [tint, color, share]
  exact congrArg Except.ok (mixToward_of_le .white h)

theorem shade_of_le (h : r ≤ 0) : shade ⟨[text, amount]⟩ settings = .ok c.toHex := by
  obtain ⟨color, share⟩ := color_and_amount hc hr
  simp only [shade, color, share]
  exact congrArg Except.ok (mixToward_of_le .black h)

variable (hd : Color.parse? other = some d)

include hd

/-- A mixture is one of its colors at the ends of the way from the first to the second. -/
theorem mix_eq : mix ⟨[text, other, amount]⟩ settings =
    .ok (if clamp r 0 1 ≤ 0 then c.toHex else if 1 ≤ clamp r 0 1 then d.toHex
      else mixToward c d (clamp r 0 1)) := by
  have first : (Arguments.mk [text, other, amount]).color 0 "a" = .ok c :=
    Arguments.color_eq_of_parse? rfl hc
  have second : (Arguments.mk [text, other, amount]).color 1 "b" = .ok d :=
    Arguments.color_eq_of_parse? rfl hd
  have ratio : (Arguments.mk [text, other, amount]).orElse 2 0.5 Arguments.readAmount = .ok r :=
    Arguments.orElse_eq_of_readAmount rfl hr 0.5
  simp only [mix, first, second, ratio, bind, Except.bind]
  show (if _ then _ else _) = _
  split_ifs <;> rfl

theorem mix_of_le (h : r ≤ 0) : mix ⟨[text, other, amount]⟩ settings = .ok c.toHex := by
  have order : (0 : Float) ≤ 1 := by decide
  rw [mix_eq hc hr hd, if_pos (clamp_of_le order h).1]

theorem mix_of_ge (h : 1 ≤ r) : mix ⟨[text, other, amount]⟩ settings = .ok d.toHex := by
  have order : (0 : Float) ≤ 1 := by decide
  have reached : 1 ≤ clamp r 0 1 := (clamp_of_ge order h).2
  have away : ¬ clamp r 0 1 ≤ 0 := fun low => absurd (le_trans reached low) (by decide)
  rw [mix_eq hc hr hd, if_neg away, if_pos reached]

end Ends

/-- What the functions answer that are asked not to move the color of a text. -/
structure Kept (text answer : String) : Prop where
  base : ∀ settings, colorScale ⟨[text, "500"]⟩ settings = .ok answer
  tinted : ∀ settings amount r, Arguments.readAmount amount = .ok r → r ≤ 0 →
    tint ⟨[text, amount]⟩ settings = .ok answer
  shaded : ∀ settings amount r, Arguments.readAmount amount = .ok r → r ≤ 0 →
    shade ⟨[text, amount]⟩ settings = .ok answer
  start : ∀ settings other amount r, (Color.parse? other).isSome = true →
    Arguments.readAmount amount = .ok r → r ≤ 0 → mix ⟨[text, other, amount]⟩ settings = .ok answer
  finish : ∀ settings other amount r, (Color.parse? other).isSome = true →
    Arguments.readAmount amount = .ok r → 1 ≤ r → mix ⟨[other, text, amount]⟩ settings = .ok answer

theorem kept (hc : Color.parse? text = some c) : Kept text c.toHex where
  base _ := colorScale_base hc
  tinted _ _ _ hr := tint_of_le hc hr
  shaded _ _ _ hr := shade_of_le hc hr
  start _ _ _ _ hd hr h := by
    obtain ⟨d, hd⟩ := Option.isSome_iff_exists.1 hd
    exact mix_of_le hc hr hd h
  finish _ _ _ _ hd hr h := by
    obtain ⟨d, hd⟩ := Option.isSome_iff_exists.1 hd
    exact mix_of_ge hd hr hc h

/-- Hexadecimal colors are read exactly by their digits, with blanks and quotes around them or as they are.
Where nothing moves such a color it is answered with its digits: six of them, in lower case. -/
theorem hexadecimal_read_and_kept :
    (∀ s, (Rgba.ofHex? s).isSome = true ↔ ∃ digits, s = '#' :: digits ∧ ColorDigits digits) ∧
      (∀ digits : List Char, digits.length = 3 ∨ digits.length = 4 →
        Rgba.ofHex? ('#' :: digits) = Rgba.ofHex? ('#' :: doubled digits)) ∧
      (∀ r r' g g' b b', (∀ d ∈ [r, r', g, g', b, b'], isHexDigit d = true) →
        Rgba.ofHex? ['#', r, r', g, g', b, b'] =
          some ⟨Rgba.channel r r', Rgba.channel g g', Rgba.channel b b', 1⟩ ∧
        ∀ a a', (∀ d ∈ [a, a'], isHexDigit d = true) →
          Rgba.ofHex? ['#', r, r', g, g', b, b', a, a'] = some
            ⟨Rgba.channel r r', Rgba.channel g g', Rgba.channel b b', Rgba.channel a a'⟩) ∧
      (∀ s, (Rgba.ofHex? s).isSome = true → unquote s = s) ∧
      ∀ text digits, unquote text.toList = '#' :: digits → ColorDigits digits →
        (∃ c, Color.parse? text = some c ∧ c.toHex = canonical digits) ∧
          Kept text (canonical digits) := by
  refine ⟨fun _ => Rgba.isSome_ofHex?_iff, fun _ => Rgba.ofHex?_doubled, ?_, ?_, ?_⟩
  · intro r r' g g' b b' six
    refine ⟨Rgba.ofHex?_of_six ⟨six, by simp⟩ rfl, fun a a' two => ?_⟩
    have eight : ∀ d ∈ [r, r', g, g', b, b', a, a'], isHexDigit d = true := by
      rw [show [r, r', g, g', b, b', a, a'] = [r, r', g, g', b, b'] ++ [a, a'] from rfl,
        List.forall_mem_append]
      exact ⟨six, two⟩
    exact Rgba.ofHex?_of_eight ⟨eight, by simp⟩ rfl
  · intro s read
    obtain ⟨c, read⟩ := Option.isSome_iff_exists.1 read
    exact unquote_of_bare (Color.bare_of_ofHex? read)
  · intro text digits h hd
    obtain ⟨c, read, written⟩ := Color.parse?_hexadecimal h hd
    exact ⟨⟨c, read, written⟩, written ▸ kept read⟩

/-- A quoted color with an opacity in four digits of either case, at the end of a mixture with a named
color and at its start. -/
theorem hexadecimal_read_and_kept_half :
    (unquote " '#F0a8' ".toList = ['#', 'F', '0', 'a', '8'] ∧ ColorDigits ['F', '0', 'a', '8']) ∧
      (∃ c, Color.parse? " '#F0a8' " = some c ∧ c.toHex = "#ff00aa") ∧
      mix ⟨["teal", " '#F0a8' ", "150%"]⟩ .builtin = .ok "#ff00aa" ∧
      mix ⟨[" '#F0a8' ", "teal", "-0.5"]⟩ .builtin = .ok "#ff00aa" := by
  have read : unquote " '#F0a8' ".toList = ['#', 'F', '0', 'a', '8'] := by decide +kernel
  have digits : ColorDigits ['F', '0', 'a', '8'] := ⟨List.all_eq_true.1 (by decide), by simp⟩
  have answer : canonical ['F', '0', 'a', '8'] = "#ff00aa" := by decide +kernel
  obtain ⟨parsed, kept⟩ := hexadecimal_read_and_kept.2.2.2.2 _ _ read digits
  rw [answer] at parsed kept
  have beyond : Arguments.readAmount "150%" = .ok 1.5 := by decide +kernel
  have before : Arguments.readAmount "-0.5" = .ok (-0.5) := by decide +kernel
  have teal : (Color.parse? "teal").isSome = true := by decide +kernel
  exact ⟨⟨read, digits⟩, parsed, kept.finish _ _ _ _ teal beyond (by decide),
    kept.start _ _ _ _ teal before (by decide)⟩

end ColorFunctions

end DesignTokens
