import DesignTokens.Catalog.Builtin
import DesignTokens.Proofs.Catalog.Arguments
import DesignTokens.Proofs.Color.Functional

/-!
# What color functions answer with

Every function that answers with a color writes it in one of two notations: `alpha` in the functional
one, and all others in hexadecimal digits. Either text is read as a color again, wherever it stands among
the arguments of another function, and this color is written with the same text.
-/

namespace DesignTokens.ColorFunctions

variable {args : Arguments} {settings : Settings} {text : String} {entry : CatalogEntry}

/-- The functions that answer with a color: the family, and three that are listed with contrast. -/
def AnswersColor (info : FunctionInfo) : Prop :=
  info.family = .color ∨ info.name = "accessibleText" ∨ info.name = "ensureContrast" ∨
    info.name = "accessiblePair"

/-- How the function of a name writes colors. -/
def printed (name : String) (c : Rgba) : String := if name = "alpha" then c.toFunctional else c.toHex

section Functions

/-- A text is that of a color in hexadecimal digits. -/
def IsHex (text : String) : Prop := ∃ c : Rgba, text = c.toHex

theorem isHex_mixToward (color target : Rgba) (t : Float) : IsHex (mixToward color target t) := by
  rw [mixToward]
  split_ifs
  · exact ⟨_, rfl⟩
  · exact ⟨_, rfl⟩

theorem yields_move (f : Oklch → Oklch) : Yields (move args f) IsHex :=
  .bind .any fun _ _ => .ok ⟨_, rfl⟩

theorem yields_moveBy (f : Oklch → Float → Oklch) : Yields (moveBy args f) IsHex :=
  .bind .any fun _ _ => .bind .any fun _ _ => .ok ⟨_, rfl⟩

theorem yields_tint : Yields (tint args settings) IsHex :=
  .bind .any fun _ _ => .bind .any fun _ _ => .bind .any fun _ _ => .ok (isHex_mixToward _ _ _)

theorem yields_shade : Yields (shade args settings) IsHex :=
  .bind .any fun _ _ => .bind .any fun _ _ => .bind .any fun _ _ => .ok (isHex_mixToward _ _ _)

theorem yields_mix : Yields (mix args settings) IsHex := by
  refine .bind .any fun _ _ => .bind .any fun a _ => .bind .any fun b _ => .bind .any fun ratio _ => ?_
  dsimp only
  split_ifs
  · exact .ok ⟨_, rfl⟩
  · exact .ok ⟨_, rfl⟩
  · exact .ok (isHex_mixToward _ _ _)

theorem yields_adjust : Yields (adjust args settings) IsHex :=
  .bind .any fun _ _ => .bind .any fun _ _ => .ok ⟨_, rfl⟩

theorem yields_alpha : Yields (alpha args settings) fun text => ∃ c : Rgba, text = c.toFunctional :=
  .bind .any fun _ _ => .bind .any fun _ _ => .bind .any fun _ _ => .ok ⟨_, rfl⟩

theorem yields_invert : Yields (invert args settings) IsHex := .bind .any fun _ _ => .ok ⟨_, rfl⟩

theorem yields_colorScale : Yields (colorScale args settings) IsHex := by
  refine .bind .any fun _ _ => .bind .any fun color _ => .bind .any fun text _ => ?_
  split
  · exact .error
  · split_ifs
    · exact .ok ⟨_, rfl⟩
    · split
      · exact .error
      · exact .ok ⟨_, rfl⟩

theorem yields_hueRotate : Yields (hueRotate args settings) IsHex :=
  .bind .any fun _ _ => .bind .any fun _ _ => .bind .any fun _ _ => .ok ⟨_, rfl⟩

theorem yields_accessibleText : Yields (ContrastFunctions.accessibleText args settings) IsHex :=
  .bind .any fun _ _ => .bind .any fun _ _ => .bind .any fun _ _ => .bind .any fun _ _ => .ok ⟨_, rfl⟩

theorem yields_ensureContrast : Yields (ContrastFunctions.ensureContrast args settings) IsHex := by
  refine .bind .any fun _ _ => .bind .any fun _ _ => .bind .any fun _ _ => .bind .any fun _ _ => ?_
  split_ifs
  · exact .ok ⟨_, rfl⟩
  · exact .error

theorem yields_accessiblePair : Yields (ContrastFunctions.accessiblePair args settings) IsHex :=
  .bind .any fun _ _ => .bind .any fun _ _ => .bind .any fun _ _ => .ok ⟨_, rfl⟩

end Functions

/-- What a function answers with is the text of a color. -/
theorem yields_printed (mem : entry ∈ Catalog.builtinEntries) (color : AnswersColor entry.info) :
    Yields (entry.body args settings) fun text => ∃ c, text = printed entry.info.name c := by
  revert entry
  simp only [AnswersColor, Catalog.builtinEntries, table, ContrastFunctions.table, TypographyFunctions.table,
    MathFunctions.table, MathFunctions.functions, printed, List.forall_mem_append, List.forall_mem_cons,
    List.not_mem_nil, false_implies, implies_true, and_true, List.map_cons, List.map_nil, reduceCtorEq,
    String.reduceEq, or_self, or_true, true_or, true_implies, true_and, if_true, if_false]
  exact ⟨⟨yields_tint, yields_shade, yields_mix, yields_adjust, yields_alpha, yields_move _,
    yields_moveBy _, yields_moveBy _, yields_invert, yields_move _, yields_move _, yields_colorScale,
    yields_moveBy _, yields_moveBy _, yields_hueRotate⟩, yields_accessibleText, yields_ensureContrast,
    yields_accessiblePair⟩

/-- What is promised of a text that the function of a name answers with. -/
structure ColorText (name : String) (text : String) (d : Rgba) : Prop where
  form : if name = "alpha" then Rgba.IsFunctional text else Rgba.IsHexadecimal text
  parsed : Color.parse? text = some d
  /-- The color that is read is written with the same text. -/
  stable : printed name d = text
  /-- Wherever a color function reads the text, it is the color. -/
  argument : ∀ (others : Arguments) (position : Nat), others.texts[position]? = some text →
    (∀ parameter, others.color position parameter = .ok d) ∧
      ∀ absent, others.orElse position absent Arguments.readColor = .ok d

/-- Every function that answers with a color answers with the text of one. -/
theorem colors_read_back (mem : entry ∈ Catalog.builtinEntries) (color : AnswersColor entry.info)
    (h : entry.body args settings = .ok text) : ∃ d, ColorText entry.info.name text d := by
  obtain ⟨c, rfl⟩ := yields_printed mem color text h
  generalize entry.info.name = name
  have argument {d : Rgba} (parsed : Color.parse? (printed name c) = some d) (others : Arguments)
      (position : Nat) (at_ : others.texts[position]? = some (printed name c)) :
      (∀ parameter, others.color position parameter = .ok d) ∧
        ∀ absent, others.orElse position absent Arguments.readColor = .ok d :=
    ⟨fun _ => Arguments.color_eq_of_parse? at_ parsed, Arguments.orElse_eq_of_parse? at_ parsed⟩
  by_cases functional : name = "alpha"
  · have text : printed name c = c.toFunctional := if_pos functional
    obtain ⟨d, parsed, stable⟩ := Rgba.parse?_toFunctional c
    rw [← text] at parsed
    refine ⟨d, ?_, parsed, ?_, argument parsed⟩
    · rw [if_pos functional, text]
      exact c.isFunctional_toFunctional
    · rw [text, printed, if_pos functional, stable]
  · have text : printed name c = c.toHex := if_neg functional
    have parsed := Color.parse?_toHex c
    rw [← text] at parsed
    refine ⟨c.written, ?_, parsed, ?_, argument parsed⟩
    · rw [if_neg functional, text]
      exact c.isHexadecimal_toHex
    · rw [text, printed, if_neg functional, c.toHex_written]

/-- The entry of `alpha`. -/
def alphaEntry : CatalogEntry :=
  ⟨⟨"alpha", .color, "alpha(color, opacity)", "Set opacity, returns rgba()"⟩, alpha⟩

/-- For a third of an opacity. -/
theorem colors_read_back_alpha :
    alphaEntry ∈ Catalog.builtinEntries ∧ AnswersColor alphaEntry.info ∧
      alphaEntry.body ⟨["#336699", "33.333%"]⟩ .builtin = .ok "rgba(51, 102, 153, 0.333)" ∧
      ∃ d, ColorText "alpha" "rgba(51, 102, 153, 0.333)" d := by
  have mem : alphaEntry ∈ Catalog.builtinEntries := by
    simp [alphaEntry, Catalog.builtinEntries, table]
  have color : AnswersColor alphaEntry.info := .inl rfl
  have answer : alphaEntry.body ⟨["#336699", "33.333%"]⟩ .builtin = .ok "rgba(51, 102, 153, 0.333)" := by
    decide +kernel
  exact ⟨mem, color, answer, colors_read_back mem color answer⟩

end DesignTokens.ColorFunctions
