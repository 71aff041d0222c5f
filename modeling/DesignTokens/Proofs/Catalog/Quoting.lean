import DesignTokens.Proofs.Catalog.Surplus
import DesignTokens.Proofs.Text.Ends

/-!
# Arguments in quotes

An argument may stand in quotes. Functions take an argument by its position, and what they are given
then is the text without its quotes; so two lists of arguments that differ in quotes only are told apart
by no reading, and a function answers the same for both, or fails the same.

The smallest and the largest operand are the exception. Their first argument is read by its position,
but all others are taken from the list as they are written, and a text in quotes is no dimension.
-/

namespace DesignTokens

open Text Expression

namespace Arguments

/-- No reading tells two lists of arguments apart. -/
structure Agree (args others : Arguments) : Prop where
  count : args.count = others.count
  optional? : ∀ position, args.optional? position = others.optional? position
  options? : args.options? = others.options?

namespace Agree

variable {args others : Arguments}

theorem atMost (h : args.Agree others) (most : ℕ) : args.atMost most = others.atMost most := by
  rw [Arguments.atMost, Arguments.atMost, h.count]

theorem required (h : args.Agree others) (position : ℕ) (name : String) :
    args.required position name = others.required position name :=
  required_eq_of_optional? (h.optional? position) name

theorem color (h : args.Agree others) (position : ℕ) (name : String) :
    args.color position name = others.color position name :=
  color_eq_of_optional? (h.optional? position) name

theorem dimension (h : args.Agree others) (position : ℕ) (name : String) :
    args.dimension position name = others.dimension position name :=
  dimension_eq_of_optional? (h.optional? position) name

theorem number (h : args.Agree others) (position : ℕ) (name : String) :
    args.number position name = others.number position name :=
  number_eq_of_optional? (h.optional? position) name

theorem amount (h : args.Agree others) (position : ℕ) (name : String) :
    args.amount position name = others.amount position name :=
  amount_eq_of_optional? (h.optional? position) name

theorem orElse {α : Type} (h : args.Agree others) (position : ℕ) (absent : α)
    (read : String → Except FunctionError α) :
    args.orElse position absent read = others.orElse position absent read :=
  orElse_eq_of_optional? (h.optional? position) absent read

theorem positionalCount (h : args.Agree others) : args.positionalCount = others.positionalCount := by
  rw [Arguments.positionalCount, Arguments.positionalCount, h.options?, h.count]

end Agree

end Arguments

namespace Catalog

variable {args others : Arguments} {settings : Settings} {entry : CatalogEntry}

section Families

variable (h : args.Agree others)

include h

theorem agree_adjustment : ColorFunctions.adjustment args = ColorFunctions.adjustment others := by
  simp only [ColorFunctions.adjustment, h.options?, h.atMost, h.required]

theorem agree_color (mem : entry ∈ ColorFunctions.table) :
    entry.body args settings = entry.body others settings := by
  revert entry
  simp only [ColorFunctions.table, List.forall_mem_cons, List.not_mem_nil, false_implies, implies_true,
    and_true]
  open ColorFunctions in
  simp only [tint, shade, mix, adjust, alpha, complement, saturate, desaturate, invert, grayscale,
    darkMode, colorScale, lighten, darken, hueRotate, move, moveBy, agree_adjustment h, h.atMost,
    h.required, h.color, h.amount, h.orElse, and_self]

theorem agree_contrast (mem : entry ∈ ContrastFunctions.table) :
    entry.body args settings = entry.body others settings := by
  revert entry
  simp only [ContrastFunctions.table, List.forall_mem_cons, List.not_mem_nil, false_implies,
    implies_true, and_true]
  open ContrastFunctions in
  simp only [ratio, meetsContrast, accessibleText, ensureContrast, luminance, isLight, isDark,
    accessiblePair, h.atMost, h.color, h.optional?, h.orElse, and_self]

theorem agree_viewports (first : ℕ) :
    TypographyFunctions.viewports args settings first =
      TypographyFunctions.viewports others settings first := by
  simp only [TypographyFunctions.viewports, TypographyFunctions.viewport, h.options?,
    h.positionalCount, h.orElse]

theorem agree_typography (mem : entry ∈ TypographyFunctions.table) :
    entry.body args settings = entry.body others settings := by
  revert entry
  simp only [TypographyFunctions.table, List.forall_mem_cons, List.not_mem_nil, false_implies,
    implies_true, and_true]
  open TypographyFunctions in
  simp only [fluidType, modularScale, typeScale, fluidSpace, lineHeight, optimalMeasure,
    responsiveType, letterSpacing, argumentPx, ratioAt, agree_viewports h, h.atMost, h.required,
    h.dimension, h.number, h.optional?, h.orElse, h.positionalCount, and_self]

theorem agree_math (mem : entry ∈ MathFunctions.table) (bounded : entry.info.name ∉ variadic) :
    entry.body args settings = entry.body others settings := by
  revert entry
  simp only [MathFunctions.table, MathFunctions.functions, List.map_cons, List.map_nil, variadic,
    List.forall_mem_cons]
  simp only [List.mem_cons, List.not_mem_nil, String.reduceEq, or_self, or_true, true_or,
    not_true_eq_false, not_false_eq_true, false_implies, true_implies, implies_true, and_true, true_and]
  open MathFunctions in
  simp only [written, multiply, divide, add, subtract, mod, MathFunctions.round, MathFunctions.floor,
    MathFunctions.ceil, roundWith, clamp, convert, MathFunctions.abs, negate, percent, unary, binary,
    h.atMost, h.dimension, h.required, h.orElse, and_self]

end Families

section Quoted

variable {text : String} {quote : Char} {before after : List String}

/-- A text in quotes. -/
def quoted (quote : Char) (text : String) : String := String.ofList (quote :: text.toList ++ [quote])

/-- A text that quotes can be put around: trimmed, without quotes, and no object literal. -/
structure Quotable (text : String) : Prop where
  trimmed : trim text.toList = text.toList
  single : '\'' ∉ text.toList
  double : '"' ∉ text.toList
  noLiteral : parseObject? text = none

theorem Quotable.unquoted_eq (h : Quotable text) : unquoted text = text := by
  rw [unquoted, unquote_eq_trim h.single h.double, h.trimmed, String.ofList_toList]

section Quote

variable (hq : quote = '\'' ∨ quote = '"')

include hq

theorem unquoted_quoted (text : String) : unquoted (quoted quote text) = text := by
  rw [unquoted, quoted, String.toList_ofList, unquote_quoted hq, String.ofList_toList]

theorem parse?_quoted (text : String) : Dimension.parse? (quoted quote text) = none := by
  have scanned : Decimal.Numeral.scan (quote :: text.toList ++ [quote]) = none := by
    rcases hq with rfl | rfl <;> rfl
  rw [Dimension.parse?, quoted, String.toList_ofList, trim_quoted hq, scanned]

theorem parseObject?_quoted (text : String) : parseObject? (quoted quote text) = none := by
  have opens : afterStart? ['{'] (quote :: text.toList ++ [quote]) = none := by
    rcases hq with rfl | rfl <;> rfl
  simp only [parseObject?, optionPairs?, quoted, String.toList_ofList, trim_quoted hq, opens]
  rfl

/-- Quotes around an argument are not seen by any reading. -/
theorem agree_quoted (h : Quotable text) (before after : List String) :
    (Arguments.mk (before ++ text :: after)).Agree ⟨before ++ quoted quote text :: after⟩ where
  count := by simp [Arguments.count]
  optional? position := by
    have same : (before ++ text :: after).map unquoted =
        (before ++ quoted quote text :: after).map unquoted := by
      simp [h.unquoted_eq, unquoted_quoted hq]
    simp only [Arguments.optional?, ← List.getElem?_map, same]
  options? := by
    rcases List.eq_nil_or_concat after with rfl | ⟨front, last, rfl⟩
    · simp [Arguments.options?, h.noLiteral, parseObject?_quoted hq]
    · simp [Arguments.options?, List.getLast?_append, List.getLast?_cons]

open MathFunctions in
/-- The first operand is read by its position. -/
theorem extreme_quoted_first (h : Quotable text) (better : Float → Float → Bool) :
    extreme better ⟨text :: after⟩ settings = extreme better ⟨quoted quote text :: after⟩ settings := by
  have agree := agree_quoted hq h [] after
  simp only [List.nil_append] at agree
  simp only [extreme, agree.dimension, List.drop_succ_cons]

open MathFunctions in
/-- Any other operand is read as it is written, and fails in quotes unless one before it fails. -/
theorem extreme_quoted (filled : before ≠ []) (better : Float → Float → Bool) :
    extreme better ⟨before ++ quoted quote text :: after⟩ settings =
      extreme better ⟨before⟩ settings >>= fun _ => .error (.invalidDimension (quoted quote text)) := by
  obtain ⟨first, others, rfl⟩ := List.exists_cons_of_ne_nil filled
  have read : (Arguments.mk (first :: (others ++ quoted quote text :: after))).dimension 0 "a" =
      (Arguments.mk (first :: others)).dimension 0 "a" :=
    Arguments.dimension_eq_of_optional? (by simp only [Arguments.optional?, List.getElem?_cons_zero]) "a"
  have refused (best : Dimension) (better : Float → Float → Bool) :
      preferred settings better best (quoted quote text) =
        .error (.invalidDimension (quoted quote text)) := by
    rw [preferred, Arguments.readDimension, parse?_quoted hq]
    rfl
  have stop (x : Except FunctionError Dimension) :
      (do
        let best ← x
        let next ← preferred settings better best (quoted quote text)
        after.foldlM (preferred settings better) next) =
          x >>= fun _ => .error (.invalidDimension (quoted quote text)) :=
    bind_congr fun best => by rw [refused]; rfl
  simp only [extreme, read, List.cons_append, List.drop_succ_cons, List.drop_zero, List.foldlM_append,
    List.foldlM_cons, stop, bind_assoc]

end Quote

open MathFunctions in
theorem written_bind_error {compute : Computation} {e : FunctionError}
    (h : compute others settings = compute args settings >>= fun _ => .error e) :
    written compute others settings = written compute args settings >>= fun _ => .error e := by
  rw [written, written, h, bind_assoc, bind_assoc]
  rfl

/-- The functions that read only their first argument by its position. -/
theorem exists_extreme (mem : entry ∈ builtinEntries) (named : entry.info.name ∈ variadic) :
    ∃ better, entry.body = MathFunctions.written (MathFunctions.extreme better) := by
  revert entry
  simp only [builtinEntries, ColorFunctions.table, ContrastFunctions.table, TypographyFunctions.table,
    MathFunctions.table, MathFunctions.functions, List.map_cons, List.map_nil, variadic,
    List.forall_mem_append, List.forall_mem_cons]
  simp only [List.mem_cons, List.not_mem_nil, String.reduceEq, or_self, or_true, true_or,
    false_implies, true_implies, implies_true, and_true, true_and]
  exact ⟨⟨_, rfl⟩, ⟨_, rfl⟩⟩

/-- Quotes around an argument do not matter, unless it is an operand of `min` or `max` that is not the
first one. Such an operand is refused in quotes: the call fails as it fails without the operand and
those behind it, or else because the operand is no dimension. -/
theorem quotes_ignored_or_refused (mem : entry ∈ builtinEntries) (h : Quotable text)
    (hq : quote = '\'' ∨ quote = '"') :
    (entry.info.name ∉ variadic ∨ before = [] →
        entry.body ⟨before ++ quoted quote text :: after⟩ settings =
          entry.body ⟨before ++ text :: after⟩ settings) ∧
      (entry.info.name ∈ variadic → before ≠ [] →
        entry.body ⟨before ++ quoted quote text :: after⟩ settings =
          entry.body ⟨before⟩ settings >>= fun _ => .error (.invalidDimension (quoted quote text))) := by
  refine ⟨fun plain => ?_, fun named filled => ?_⟩
  · by_cases named : entry.info.name ∈ variadic
    · obtain rfl := plain.resolve_left (not_not.2 named)
      obtain ⟨better, body⟩ := exists_extreme mem named
      rw [body, List.nil_append, List.nil_append, MathFunctions.written, MathFunctions.written,
        extreme_quoted_first hq h]
    · have agree := agree_quoted hq h before after
      rw [builtinEntries, List.mem_append, List.mem_append, List.mem_append] at mem
      rcases mem with ((color | contrast) | typography) | math
      · exact (agree_color agree color).symm
      · exact (agree_contrast agree contrast).symm
      · exact (agree_typography agree typography).symm
      · exact (agree_math agree math named).symm
  · obtain ⟨better, body⟩ := exists_extreme mem named
    rw [body]
    exact written_bind_error (extreme_quoted hq filled better)

/-- The entry of `max`. -/
def maxEntry : CatalogEntry :=
  ⟨⟨"max", .math, "max(a, b, ...)", "Largest operand"⟩, MathFunctions.written MathFunctions.max⟩

theorem maxEntry_mem : maxEntry ∈ builtinEntries := by
  simp [maxEntry, builtinEntries, MathFunctions.table, MathFunctions.functions]

theorem quotable_px : Quotable "2px" where
  trimmed := by decide +kernel
  single := by decide +kernel
  double := by decide +kernel
  noLiteral := by decide +kernel

/-- For the first operand and for the second one. -/
theorem quotes_ignored_or_refused_max :
    (maxEntry ∈ builtinEntries ∧ Quotable "2px" ∧ maxEntry.info.name ∈ variadic) ∧
      maxEntry.body ⟨["'2px'", "4px"]⟩ .builtin = maxEntry.body ⟨["2px", "4px"]⟩ .builtin ∧
      maxEntry.body ⟨["4px", "'2px'"]⟩ .builtin =
        (maxEntry.body ⟨["4px"]⟩ .builtin >>= fun _ => .error (.invalidDimension "'2px'")) := by
  have named : maxEntry.info.name ∈ variadic := by decide
  have single : ('\'' : Char) = '\'' ∨ ('\'' : Char) = '"' := .inl rfl
  have text : quoted '\'' "2px" = "'2px'" := by decide +kernel
  have first := (@quotes_ignored_or_refused .builtin _ _ _ [] ["4px"] maxEntry_mem quotable_px single).1
    (.inr rfl)
  have second := (@quotes_ignored_or_refused .builtin _ _ _ ["4px"] [] maxEntry_mem quotable_px single).2
    named (List.cons_ne_nil _ _)
  rw [text] at first second
  exact ⟨⟨maxEntry_mem, quotable_px, named⟩, first, second⟩

/-- A second operand in quotes is refused. -/
theorem quotes_refused_by_max :
    maxEntry ∈ builtinEntries ∧ Quotable "2px" ∧ quoted '\'' "2px" = "'2px'" ∧
      maxEntry.body ⟨["4px", "2px"]⟩ .builtin = .ok "4px" ∧
      maxEntry.body ⟨["4px", "'2px'"]⟩ .builtin = .error (.invalidDimension "'2px'") := by
  exact ⟨maxEntry_mem, quotable_px, by decide +kernel, by decide +kernel, by decide +kernel⟩

end Quoted

end Catalog

end DesignTokens
