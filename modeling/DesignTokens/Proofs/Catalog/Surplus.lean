import DesignTokens.Catalog.Builtin
import DesignTokens.Proofs.Catalog.Arguments

/-!
# Surplus arguments

The signature of a function lists its parameters, in one alternative or in several. A call with more
arguments than the longest alternative has parameters is refused by the function, with one exception:
color functions that move a color in Oklch or Oklab and nothing else do not count their arguments. They
answer as if the surplus were not there.
-/

namespace DesignTokens

/-- How many parameters the longest alternative of a signature has. -/
def longestAlternative (signature : List Char) : ℕ :=
  let alternatives := (Text.splitAt '|' signature).filterMap Call.split?
  (alternatives.map fun (_, parameters) => parameters.length).foldr max 0

/-- How many arguments a function is for at most. -/
def FunctionInfo.mostParameters (info : FunctionInfo) : ℕ := longestAlternative info.signature.toList

-- The characters of a signature are taken from the literal, as counting is slow on the bytes of a string.
theorem FunctionInfo.le_mostParameters {name description : String} {family : FunctionFamily}
    {signature : List Char} {n : ℕ} (h : n ≤ longestAlternative signature) :
    n ≤ mostParameters ⟨name, family, String.ofList signature, description⟩ := by
  rwa [mostParameters, String.toList_ofList]

/-- The first arguments of a call. -/
def Arguments.first (args : Arguments) (n : ℕ) : Arguments := ⟨args.texts.take n⟩

theorem Arguments.optional?_first {position n : ℕ} (args : Arguments) (h : position < n) :
    args.optional? position = (args.first n).optional? position := by
  rw [optional?, optional?, first, List.getElem?_take_of_lt h]

namespace Catalog

open Arguments FunctionInfo

variable {args : Arguments} {settings : Settings} {entry : CatalogEntry} {n : ℕ}

/-- The functions of any number of operands. -/
def variadic : List String := ["min", "max"]

/-- The functions that do not count their arguments. -/
def uncounted : List String :=
  ["complement", "saturate", "desaturate", "invert", "grayscale", "darkMode", "lighten", "darken",
    "hueRotate"]

section Counted

/-- A function that counts its arguments first refuses more than it is for. -/
theorem fails_first {α : Type} {most : ℕ} {f : Unit → Except FunctionError α} (le : most ≤ n)
    (surplus : n < args.count) : Fails (args.atMost most >>= f) :=
  (fails_atMost le surplus).bind

/-- An adjustment has the color read before it counts the arguments, and needs fewer with options. -/
theorem fails_adjust (le : 3 ≤ n) (surplus : n < args.count) :
    Fails (ColorFunctions.adjust args settings) := by
  refine .bind_right fun color => Fails.bind ?_
  rw [ColorFunctions.adjustment]
  split
  · exact fails_first (Nat.le_of_succ_le le) surplus
  · exact fails_first le surplus

theorem fails_color (mem : entry ∈ ColorFunctions.table) (counted : entry.info.name ∉ uncounted)
    (surplus : entry.info.mostParameters < args.count) : Fails (entry.body args settings) := by
  revert entry
  simp only [ColorFunctions.table, uncounted, List.forall_mem_cons]
  simp only [List.mem_cons, List.not_mem_nil, String.reduceEq, or_self, or_true, true_or,
    not_true_eq_false, not_false_eq_true, false_implies, true_implies, implies_true, and_true, true_and]
  refine ⟨?_, ?_, ?_, fails_adjust (le_mostParameters (by decide)), ?_, ?_⟩ <;>
    exact fails_first (le_mostParameters (by decide))

theorem fails_contrast (mem : entry ∈ ContrastFunctions.table)
    (surplus : entry.info.mostParameters < args.count) : Fails (entry.body args settings) := by
  revert entry
  simp only [ContrastFunctions.table, List.forall_mem_cons, List.not_mem_nil, false_implies,
    implies_true, and_true]
  refine ⟨?_, ?_, ?_, ?_, ?_, ?_, ?_, ?_⟩ <;> exact fails_first (le_mostParameters (by decide))

theorem fails_typography (mem : entry ∈ TypographyFunctions.table)
    (surplus : entry.info.mostParameters < args.count) : Fails (entry.body args settings) := by
  revert entry
  simp only [TypographyFunctions.table, List.forall_mem_cons, List.not_mem_nil, false_implies,
    implies_true, and_true]
  refine ⟨?_, ?_, ?_, ?_, ?_, ?_, ?_, ?_⟩ <;> exact fails_first (le_mostParameters (by decide))

/-- What fails is not written. -/
theorem fails_written {compute : MathFunctions.Computation} (h : Fails (compute args settings)) :
    Fails (MathFunctions.written compute args settings) := h.bind

theorem fails_math (mem : entry ∈ MathFunctions.table) (bounded : entry.info.name ∉ variadic)
    (surplus : entry.info.mostParameters < args.count) : Fails (entry.body args settings) := by
  revert entry
  simp only [MathFunctions.table, MathFunctions.functions, List.map_cons, List.map_nil, variadic,
    List.forall_mem_cons]
  simp only [List.mem_cons, List.not_mem_nil, String.reduceEq, or_self, or_true, true_or,
    not_true_eq_false, not_false_eq_true, false_implies, true_implies, implies_true, and_true, true_and]
  have of_unary {α : Type} {n : ℕ} {f : Dimension → Except FunctionError α} (le : 1 ≤ n)
      (surplus : n < args.count) : Fails (MathFunctions.unary args >>= f) :=
    (fails_first le surplus : Fails (MathFunctions.unary args)).bind
  have of_binary {α : Type} {n : ℕ} {f : Dimension × Dimension → Except FunctionError α} (le : 2 ≤ n)
      (surplus : n < args.count) : Fails (MathFunctions.binary args >>= f) :=
    (fails_first le surplus : Fails (MathFunctions.binary args)).bind
  refine ⟨fun h => fails_written (of_binary ?_ h), fun h => fails_written (of_binary ?_ h),
    fun h => fails_written (of_binary ?_ h), fun h => fails_written (of_binary ?_ h),
    fun h => fails_written (fails_first ?_ h), fun h => fails_written (fails_first ?_ h),
    fun h => fails_written (fails_first ?_ h), fun h => fails_written (fails_first ?_ h),
    fun h => fails_written (fails_first ?_ h), fun h => fails_written (of_binary ?_ h),
    fun h => fails_written (of_unary ?_ h), fun h => fails_written (of_unary ?_ h),
    fun h => fails_written (fails_first ?_ h)⟩ <;> exact le_mostParameters (by decide)

end Counted

section Uncounted

/-- A color that is moved depends on the first argument only. -/
theorem move_first (le : 1 ≤ n) (f : Oklch → Oklch) :
    ColorFunctions.move args f = ColorFunctions.move (args.first n) f := by
  rw [ColorFunctions.move, ColorFunctions.move, color_eq_of_optional? (args.optional?_first le)]

/-- A color that is moved by an amount depends on the first two arguments only. -/
theorem moveBy_first (le : 2 ≤ n) (f : Oklch → Float → Oklch) :
    ColorFunctions.moveBy args f = ColorFunctions.moveBy (args.first n) f := by
  rw [ColorFunctions.moveBy, ColorFunctions.moveBy,
    color_eq_of_optional? (args.optional?_first (Nat.lt_of_succ_le (Nat.le_of_succ_le le))),
    amount_eq_of_optional? (args.optional?_first le)]

theorem invert_first (le : 1 ≤ n) :
    ColorFunctions.invert args settings = ColorFunctions.invert (args.first n) settings := by
  rw [ColorFunctions.invert, ColorFunctions.invert, color_eq_of_optional? (args.optional?_first le)]

theorem hueRotate_first (le : 2 ≤ n) :
    ColorFunctions.hueRotate args settings = ColorFunctions.hueRotate (args.first n) settings := by
  rw [ColorFunctions.hueRotate, ColorFunctions.hueRotate,
    color_eq_of_optional? (args.optional?_first (Nat.lt_of_succ_le (Nat.le_of_succ_le le))),
    required_eq_of_optional? (args.optional?_first le)]

theorem eq_first_of_uncounted (mem : entry ∈ builtinEntries) (named : entry.info.name ∈ uncounted) :
    entry.body args settings = entry.body (args.first entry.info.mostParameters) settings := by
  revert entry
  simp only [builtinEntries, ColorFunctions.table, ContrastFunctions.table, TypographyFunctions.table,
    MathFunctions.table, MathFunctions.functions, List.map_cons, List.map_nil, uncounted,
    List.forall_mem_append, List.forall_mem_cons]
  simp only [List.mem_cons, List.not_mem_nil, String.reduceEq, or_self, or_true, true_or,
    false_implies, true_implies, implies_true, and_true, true_and]
  refine ⟨move_first ?_ _, moveBy_first ?_ _, moveBy_first ?_ _, invert_first ?_, move_first ?_ _,
    move_first ?_ _, moveBy_first ?_ _, moveBy_first ?_ _, hueRotate_first ?_⟩ <;>
    exact le_mostParameters (by decide)

end Uncounted

/-- A built-in function with a fixed number of parameters refuses surplus arguments, unless it is one of
the color functions that do not count; these answer as if the surplus were not there. -/
theorem surplus_refused_or_ignored (mem : entry ∈ builtinEntries)
    (bounded : entry.info.name ∉ variadic) (surplus : entry.info.mostParameters < args.count) :
    (entry.info.name ∉ uncounted → ∃ e, entry.body args settings = .error e) ∧
      (entry.info.name ∈ uncounted →
        entry.body args settings = entry.body (args.first entry.info.mostParameters) settings) := by
  refine ⟨fun counted => Fails.exists_error ?_, eq_first_of_uncounted mem⟩
  rw [builtinEntries, List.mem_append, List.mem_append, List.mem_append] at mem
  rcases mem with ((color | contrast) | typography) | math
  · exact fails_color color counted surplus
  · exact fails_contrast contrast surplus
  · exact fails_typography typography surplus
  · exact fails_math math bounded surplus

/-- The entry of `tint`. -/
def tintEntry : CatalogEntry :=
  ⟨⟨"tint", .color, "tint(color, amount)", "Mix toward white in OKLab"⟩, ColorFunctions.tint⟩

/-- The entry of `grayscale`. -/
def grayscaleEntry : CatalogEntry :=
  ⟨⟨"grayscale", .color, "grayscale(color)", "Drop all chroma"⟩, ColorFunctions.grayscale⟩

theorem tintEntry_mem : tintEntry ∈ builtinEntries := by
  simp [tintEntry, builtinEntries, ColorFunctions.table]

theorem grayscaleEntry_mem : grayscaleEntry ∈ builtinEntries := by
  simp [grayscaleEntry, builtinEntries, ColorFunctions.table]

/-- Three arguments are too many for a function with two parameters and for one with a single one. -/
theorem surplus_refused_or_ignored_three :
    let args : Arguments := ⟨["#ff0000", "20%", "10%"]⟩
    (∀ entry ∈ [tintEntry, grayscaleEntry], entry ∈ builtinEntries ∧ entry.info.name ∉ variadic ∧
        entry.info.mostParameters < args.count) ∧
      (∃ e, tintEntry.body args .builtin = .error e) ∧
      grayscaleEntry.body args .builtin = grayscaleEntry.body ⟨["#ff0000"]⟩ .builtin := by
  intro args
  have bounded : ∀ entry ∈ [tintEntry, grayscaleEntry], entry.info.name ∉ variadic := by decide
  have surplus : ∀ entry ∈ [tintEntry, grayscaleEntry], entry.info.mostParameters < args.count := by
    decide +kernel
  have one : args.first grayscaleEntry.info.mostParameters = ⟨["#ff0000"]⟩ := by decide +kernel
  have known : ∀ entry ∈ [tintEntry, grayscaleEntry], entry ∈ builtinEntries := by
    simp [tintEntry_mem, grayscaleEntry_mem]
  have tinted : tintEntry ∈ [tintEntry, grayscaleEntry] := by simp
  have grayed : grayscaleEntry ∈ [tintEntry, grayscaleEntry] := by simp
  rw [← one]
  exact ⟨fun entry mem => ⟨known entry mem, bounded entry mem, surplus entry mem⟩,
    (surplus_refused_or_ignored tintEntry_mem (bounded _ tinted) (surplus _ tinted)).1 (by decide),
    (surplus_refused_or_ignored grayscaleEntry_mem (bounded _ grayed) (surplus _ grayed)).2 (by decide)⟩

/-- A surplus argument is not refused. -/
theorem surplus_answered_by_grayscale :
    grayscaleEntry ∈ builtinEntries ∧ grayscaleEntry.info.name ∉ variadic ∧
      grayscaleEntry.info.mostParameters < (Arguments.mk ["#ff0000", "20%"]).count ∧
      ∃ text, grayscaleEntry.body ⟨["#ff0000", "20%"]⟩ .builtin = .ok text := by
  have read : (Arguments.mk ["#ff0000", "20%"]).color 0 "color" = .ok ⟨1, 0, 0, 1⟩ := by
    decide +kernel
  refine ⟨grayscaleEntry_mem, by decide, by decide +kernel, ?_⟩
  show ∃ text, ColorFunctions.grayscale ⟨["#ff0000", "20%"]⟩ .builtin = .ok text
  rw [ColorFunctions.grayscale, ColorFunctions.move, read]
  exact ⟨_, rfl⟩

end Catalog

end DesignTokens
