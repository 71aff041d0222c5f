import DesignTokens.Catalog.ColorFunctions
import DesignTokens.Catalog.TypographyFunctions
import DesignTokens.Proofs.Catalog.Arguments
import DesignTokens.Proofs.Dimension
import DesignTokens.Proofs.Expression.Object

/-!
# Options in the place of positions

What a function is given by position it can be given by options instead: an adjustment by the name of
its channel, and viewports by their names. The function answers the same, or fails the same.

The two are read in different ways. A position is a text, and a dimension is read from it. The value of
an option is a number already, if the text is one. But a text is read as a finite number exactly if it
is a dimension without a unit, and then the numbers are the same; so it makes no difference which reader
comes first.
-/

namespace DesignTokens

open Text Expression

namespace Arguments

variable {text : String}

/-- An option is the text that was written, or the number that the text is without a unit. -/
theorem optionValue_cases (text : String) :
    optionValue text.toList = .string text ∨
      ∃ x, optionValue text.toList = .number (.real x) ∧
        Dimension.parse? text = some (.unitless x) := by
  rw [optionValue]
  cases read : Decimal.readFloat? text.toList with
  | none => exact .inl (by rw [String.ofList_toList])
  | some x =>
    by_cases finite : x.isFinite = true
    · have trimmed := Dimension.trim_of_readFloat? read finite
      have bare := (Dimension.readFloat?_finite_iff trimmed).1 ⟨read, finite⟩
      exact .inr ⟨x, if_pos finite, bare⟩
    · exact .inl (by rw [String.ofList_toList]; exact if_neg finite)

/-- A reader of options agrees with a reader of texts, if it does on texts and on bare numbers. -/
theorem read_optionValue {α : Type} {read : String → Except FunctionError α}
    {readOption : Json → Except FunctionError α}
    (string : readOption (.string text) = read text)
    (number : ∀ x, Dimension.parse? text = some (.unitless x) →
      readOption (.number (.real x)) = read text) :
    readOption (optionValue text.toList) = read text := by
  rcases optionValue_cases text with value | ⟨x, value, bare⟩
  · rw [value, string]
  · rw [value, number x bare]

theorem dimensionOfOption_optionValue (text : String) :
    dimensionOfOption (optionValue text.toList) = readDimension text :=
  read_optionValue rfl fun x bare => by rw [readDimension, bare]; rfl

theorem numberOfOption_optionValue (text : String) :
    numberOfOption (optionValue text.toList) = readNumber text :=
  read_optionValue rfl fun x bare => by rw [readNumber, bare]; rfl

theorem amountOfOption_optionValue (text : String) :
    amountOfOption (optionValue text.toList) = readAmount text :=
  read_optionValue rfl fun x bare => by rw [readAmount, readDimension, bare]; rfl

theorem degreesOfOption_optionValue (text : String) :
    degreesOfOption (optionValue text.toList) = readDegrees text :=
  read_optionValue rfl fun x bare => by rw [readDegrees, readDimension, bare]; rfl

section Positions

variable {args others : Arguments} {position : Nat}

/-- A word at a position is read as it is written. -/
theorem optional?_word (given : args.texts[position]? = some text) (word : IsWord text) :
    args.optional? position = some text := by
  simp [optional?, given, word.unquoted_eq, word.filled]

variable (same : args.texts[position]? = others.texts[position]?)

include same

/-- What is read at a position depends on the text that stands there only. -/
theorem optional?_congr : args.optional? position = others.optional? position := by
  rw [optional?, optional?, same]

theorem color_congr (name : String) : args.color position name = others.color position name :=
  color_eq_of_optional? (optional?_congr same) name

theorem dimension_congr (name : String) :
    args.dimension position name = others.dimension position name :=
  dimension_eq_of_optional? (optional?_congr same) name

theorem orElse_congr {α : Type} (absent : α) (read : String → Except FunctionError α) :
    args.orElse position absent read = others.orElse position absent read :=
  orElse_eq_of_optional? (optional?_congr same) absent read

end Positions

end Arguments

section Adjustments

open ColorFunctions

variable {color channel delta : String}

/-- The distance of a channel may stand in an option as well as in a text. -/
theorem set_optionValue (delta : String) (a : Adjustment) (channel : String) :
    a.set channel (optionValue delta.toList) = a.set channel (.string delta) := by
  unfold Adjustment.set
  cases Channel.parse? channel with
  | none => rfl
  | some kind =>
    cases kind with
    | lightness => simp only [Arguments.amountOfOption_optionValue]; rfl
    | chroma => simp only [Arguments.numberOfOption_optionValue]; rfl
    | hue => simp only [Arguments.degreesOfOption_optionValue]; rfl

theorem adjustment_of_positions (hk : IsWord channel) (hd : IsWord delta) :
    adjustment ⟨[color, channel, delta]⟩ = Adjustment.zero.set channel (.string delta) := by
  have none : (Arguments.mk [color, channel, delta]).options? = .none := hd.parseObject?_eq_none
  have second : (Arguments.mk [color, channel, delta]).optional? 1 = some channel :=
    Arguments.optional?_word rfl hk
  have third : (Arguments.mk [color, channel, delta]).optional? 2 = some delta :=
    Arguments.optional?_word rfl hd
  simp only [adjustment, none, Arguments.required, second, third]
  rfl

theorem adjustment_of_options (hk : IsWord channel) (hd : IsWord delta) :
    adjustment ⟨[color, objectText [(channel, delta)]]⟩ =
      Adjustment.zero.set channel (optionValue delta.toList) := by
  have options : (Arguments.mk [color, objectText [(channel, delta)]]).options? =
      some [(channel, optionValue delta.toList)] := by
    have words : ∀ entry ∈ [(channel, delta)], IsWord entry.1 ∧ IsWord entry.2 := by simp [hk, hd]
    have parsed := parseObject?_objectText (by simp) words
    simpa [Arguments.options?, KeyedList.ofList, KeyedList.insert] using parsed
  simp only [adjustment, options, List.foldlM_cons, List.foldlM_nil, bind_pure]
  rfl

end Adjustments

section Viewports

open TypographyFunctions

variable {args : Arguments} {settings : Settings} {options : KeyedList Json} {key text : String}
variable {first second least most : String} {position : Nat} {default : Float}

/-- A viewport in an option is read as the dimension that the option writes. -/
theorem viewport_of_option (given : KeyedList.get? options key = some (optionValue text.toList)) :
    viewport args settings options key position default =
      Arguments.readDimension text >>= lengthPx settings := by
  rw [viewport, given]
  simp only [Arguments.dimensionOfOption_optionValue]

/-- A viewport at a position is read as the dimension that the argument writes. -/
theorem viewport_of_position (word : IsWord text) (absent : KeyedList.get? options key = none)
    (given : args.texts[position]? = some text) (before : position < args.positionalCount) :
    viewport args settings options key position default =
      Arguments.readDimension text >>= lengthPx settings := by
  rw [viewport, absent]
  simp only [Nat.not_le.2 before, if_false, Arguments.orElse, Arguments.optional?_word given word]

/-- The options that write two viewports. -/
def viewportsText (least most : String) : String :=
  objectText [("minViewport", least), ("maxViewport", most)]

/-- Both viewports are found in the options that write them. -/
theorem exists_parseObject?_viewportsText (hl : IsWord least) (hm : IsWord most) :
    ∃ options, parseObject? (viewportsText least most) = some options ∧
      KeyedList.get? options "minViewport" = some (optionValue least.toList) ∧
      KeyedList.get? options "maxViewport" = some (optionValue most.toList) := by
  have names : IsWord "minViewport" ∧ IsWord "maxViewport" := by decide +kernel
  have words : ∀ entry ∈ [("minViewport", least), ("maxViewport", most)],
      IsWord entry.1 ∧ IsWord entry.2 := by
    simp [hl, hm, names]
  rw [viewportsText, parseObject?_objectText (by simp) words]
  refine ⟨_, rfl, ?_, ?_⟩ <;>
  · rw [List.map_cons, List.map_singleton, KeyedList.ofList, List.foldl_cons, List.foldl_cons,
      List.foldl_nil]
    simp [KeyedList.get?_insert]

theorem positionalCount_positions (hm : IsWord most) :
    (Arguments.mk [first, second, least, most]).positionalCount = 4 := by
  simp [Arguments.positionalCount, Arguments.options?, hm.parseObject?_eq_none, Arguments.count]

/-- Options are not counted among the arguments before them. -/
theorem positionalCount_viewportsText (hl : IsWord least) (hm : IsWord most) :
    (Arguments.mk [first, second, viewportsText least most]).positionalCount = 2 := by
  obtain ⟨options, parsed, -, -⟩ := exists_parseObject?_viewportsText hl hm
  simp [Arguments.positionalCount, Arguments.options?, parsed, Arguments.count]

/-- Viewports are the same by position and by options. -/
theorem viewports_eq (hl : IsWord least) (hm : IsWord most) :
    viewports ⟨[first, second, least, most]⟩ settings 2 =
      viewports ⟨[first, second, viewportsText least most]⟩ settings 2 := by
  obtain ⟨options, parsed, low, high⟩ := exists_parseObject?_viewportsText hl hm
  have none : (Arguments.mk [first, second, least, most]).options? = .none := by
    simp [Arguments.options?, hm.parseObject?_eq_none]
  have some : (Arguments.mk [first, second, viewportsText least most]).options? = .some options := by
    simp [Arguments.options?, parsed]
  have before : 3 < (Arguments.mk [first, second, least, most]).positionalCount := by
    rw [positionalCount_positions hm]
    decide
  rw [viewports, viewports, none, some, Option.getD_none, Option.getD_some,
    viewport_of_position hl rfl rfl (Nat.lt_of_succ_lt before), viewport_of_position hm rfl rfl before,
    viewport_of_option low, viewport_of_option high]

/-- The functions of fluid sizes read two arguments and two viewports, wherever these stand. -/
theorem fluid_eq (hl : IsWord least) (hm : IsWord most) :
    ∀ body ∈ [fluidType, fluidSpace, responsiveType],
      body ⟨[first, second, least, most]⟩ settings =
        body ⟨[first, second, viewportsText least most]⟩ settings := by
  have bounds : viewports ⟨[first, second, least, most]⟩ settings 2 =
      viewports ⟨[first, second, viewportsText least most]⟩ settings 2 := viewports_eq hl hm
  have behind : 1 < (Arguments.mk [first, second, least, most]).positionalCount ∧
      1 < (Arguments.mk [first, second, viewportsText least most]).positionalCount := by
    rw [positionalCount_positions hm, positionalCount_viewportsText hl hm]
    decide
  generalize positions : Arguments.mk [first, second, least, most] = args at bounds behind ⊢
  generalize options : Arguments.mk [first, second, viewportsText least most] = others
    at bounds behind ⊢
  have few : args.atMost 4 = others.atMost 4 := by subst positions options; rfl
  have leading : args.texts[0]? = others.texts[0]? := by subst positions options; rfl
  have next : args.texts[1]? = others.texts[1]? := by subst positions options; rfl
  have start := Arguments.dimension_congr leading
  have finish := Arguments.dimension_congr next
  intro body hb
  simp only [List.mem_cons, List.not_mem_nil, or_false] at hb
  rcases hb with rfl | rfl | rfl
  · simp only [fluidType, argumentPx, few, start, finish, bounds]
  · simp only [fluidSpace, few, start, finish, bounds]
  · simp only [responsiveType, argumentPx, few, start, behind, if_true, bounds,
      Arguments.orElse_congr next]

end Viewports

/-- A function answers the same, or fails the same, whether it is given its arguments by position or by
options: an adjustment of a color by the name of a channel, and a fluid size by two viewports. -/
theorem positions_eq_options (settings : Settings) :
    (∀ color channel delta, IsWord channel → IsWord delta →
      ColorFunctions.adjust ⟨[color, channel, delta]⟩ settings =
        ColorFunctions.adjust ⟨[color, objectText [(channel, delta)]]⟩ settings) ∧
      ∀ body ∈ [TypographyFunctions.fluidType, TypographyFunctions.fluidSpace,
          TypographyFunctions.responsiveType],
        ∀ first second least most, IsWord least → IsWord most →
          body ⟨[first, second, least, most]⟩ settings =
            body ⟨[first, second,
              objectText [("minViewport", least), ("maxViewport", most)]]⟩ settings := by
  constructor
  · intro color channel delta hk hd
    have first : (Arguments.mk [color, channel, delta]).texts[0]? =
        (Arguments.mk [color, objectText [(channel, delta)]]).texts[0]? := rfl
    rw [ColorFunctions.adjust, ColorFunctions.adjust, Arguments.color_congr first,
      adjustment_of_positions hk hd, adjustment_of_options hk hd, set_optionValue delta]
  · intro body hb first second least most hl hm
    exact fluid_eq hl hm body hb

/-- A number, a number with a unit and a number with an exponent are words. -/
theorem positions_eq_options_written :
    (IsWord "hue" ∧ IsWord "-1e2" ∧ IsWord "20rem" ∧ IsWord ".9e3") ∧
      ColorFunctions.adjust ⟨["#3366cc", "hue", "-1e2"]⟩ .builtin =
        ColorFunctions.adjust ⟨["#3366cc", "\x7b hue: -1e2 \x7d"]⟩ .builtin ∧
      TypographyFunctions.fluidType ⟨["1rem", "2rem", "20rem", ".9e3"]⟩ .builtin =
        TypographyFunctions.fluidType
          ⟨["1rem", "2rem", "\x7b minViewport: 20rem, maxViewport: .9e3 \x7d"]⟩ .builtin := by
  have written : IsWord "hue" ∧ IsWord "-1e2" ∧ IsWord "20rem" ∧ IsWord ".9e3" := by decide +kernel
  have ⟨hue, angle, least, most⟩ := written
  exact ⟨written, (positions_eq_options .builtin).1 "#3366cc" _ _ hue angle,
    (positions_eq_options .builtin).2 _ (by simp) "1rem" "2rem" _ _ least most⟩

end DesignTokens
