import DesignTokens.Reference.Expansion

/-!
# Expanding references under a guard

The program expands references with one chain that it changes as it goes: a path is put on the chain
when its token is entered and taken off when the token is left. The hook and the diagnostics work on a
state of their own, which is passed along from each to the next.

`Unwound` is what an expansion returns: besides the result it holds the fact that the chain is again
what it was on entry. This is what lets the next placeholder be expanded, since the measure of
`Reference.remaining` speaks of the chain.
-/

namespace DesignTokens.Reference

/-- The state of an expansion. -/
structure Guarded (σ : Type) where
  /-- The paths of the tokens being expanded, the outermost first. -/
  chain : List String
  /-- Every chain there was before this one, the latest first. -/
  past : List (List String)
  /-- The state of the hook and of whatever observes the steps. -/
  state : σ

namespace Guarded

variable {σ α : Type} [Observer σ]

/-- The state in which an expansion begins. -/
def start (chain : List String) (state : σ) : Guarded σ := ⟨chain, [], state⟩

/-- Takes one step in. -/
def observe (s : Guarded σ) (t : Step) : Guarded σ :=
  { s with state := Observer.observe s.state t }

instance : Observer (Guarded σ) := ⟨observe⟩

/-- Enters the token at a path. -/
def push (s : Guarded σ) (path : String) : Guarded σ :=
  { chain := s.chain ++ [path]
    past := s.chain :: s.past
    state := Observer.observe s.state (.opened path) }

/-- Leaves the token at a path. -/
def pop (s : Guarded σ) (path : String) : Guarded σ :=
  { chain := s.chain.dropLast
    past := s.chain :: s.past
    state := Observer.observe s.state (.closed path) }

/-- Hands the text of the token at a path to the hook, and leaves the token. -/
def leave (hook : String → StateM σ String) (path text : String) : StateM (Guarded σ) String :=
  fun s =>
    let s := s.observe (.expanded path text)
    let (answer, state) := hook text s.state
    (answer, { s with state := state }.pop path)

@[simp] theorem chain_observe (s : Guarded σ) (t : Step) : (s.observe t).chain = s.chain := rfl

@[simp] theorem chain_push (s : Guarded σ) (path : String) :
    (s.push path).chain = s.chain ++ [path] := rfl

@[simp] theorem state_push (s : Guarded σ) (path : String) :
    (s.push path).state = Observer.observe s.state (.opened path) := rfl

@[simp] theorem chain_pop (s : Guarded σ) (path : String) :
    (s.pop path).chain = s.chain.dropLast := rfl

@[simp] theorem chain_leave (hook : String → StateM σ String) (path text : String)
    (s : Guarded σ) : (leave hook path text s).2.chain = s.chain.dropLast := rfl

theorem past_leave (hook : String → StateM σ String) (path text : String) (s : Guarded σ) :
    (leave hook path text s).2.past = s.chain :: s.past := rfl

/-- What an expansion that was entered with a chain returns. -/
structure Unwound (σ α : Type) (chain : List String) where
  value : α
  after : Guarded σ
  unwound : after.chain = chain

/-- The result with the state after it. -/
def Unwound.run {chain : List String} (r : Unwound σ α chain) : α × Guarded σ := (r.value, r.after)

/-- Keeps a placeholder as it is written, for the given reason. -/
def keep (s : Guarded σ) (path : String) (reason : Event) : Unwound σ String s.chain :=
  ⟨placeholderText path, s.observe (.raised reason), rfl⟩

mutual

/-- The text that the placeholder of a path expands to. -/
def expand (tree : Tree) (hook : String → StateM σ String) (path : String) (s : Guarded σ) :
    Unwound σ String s.chain :=
  if _hc : s.chain.contains path then s.keep path (cycleEvent s.chain path)
  else
    match _ht : target tree path with
    | .text inner =>
      let inside := expandParts tree hook (template inner) (s.push path)
      let answer := leave hook path (String.ofList inside.value) inside.after
      ⟨answer.1, answer.2, by simp [answer, inside.unwound]⟩
    | .typed value => ⟨value.render, s, rfl⟩
    | .null => s.keep path (nullEvent path)
    | .group => s.keep path (groupEvent path)
    | .missing => s.keep path (missingEvent path)
termination_by (remaining tree s.chain, 0)
decreasing_by exact Prod.Lex.left _ _ (remaining_lt _hc _ht)

/-- The text of some parts, with every placeholder expanded. -/
def expandParts (tree : Tree) (hook : String → StateM σ String) (parts : List Part)
    (s : Guarded σ) : Unwound σ (List Char) s.chain :=
  match parts with
  | [] => ⟨[], s, rfl⟩
  | .char c :: parts =>
    let others := expandParts tree hook parts s
    ⟨c :: others.value, others.after, others.unwound⟩
  | .placeholder path :: parts =>
    let text := expand tree hook path s
    let others := expandParts tree hook parts text.after
    ⟨text.value.toList ++ others.value, others.after, others.unwound.trans text.unwound⟩
termination_by (remaining tree s.chain, parts.length)
decreasing_by
  · exact Prod.Lex.right _ (by simp)
  · exact Prod.Lex.right _ (by simp)
  · rw [text.unwound]
    exact Prod.Lex.right _ (by simp)

end

/-- The text that the placeholder of a path expands to, as an operation on the state. -/
def expandPath (tree : Tree) (hook : String → StateM σ String) (path : String) :
    StateM (Guarded σ) String := fun s => (expand tree hook path s).run

/-- The text of some parts, as an operation on the state. -/
def expandAll (tree : Tree) (hook : String → StateM σ String) (parts : List Part) :
    StateM (Guarded σ) (List Char) := fun s => (expandParts tree hook parts s).run

/-- A text with every placeholder expanded. -/
def expandText (tree : Tree) (hook : String → StateM σ String) (text : String) :
    StateM (Guarded σ) String := do
  let chars ← expandAll tree hook (template text)
  pure (String.ofList chars)

@[simp] theorem chain_expandPath (tree : Tree) (hook : String → StateM σ String) (path : String)
    (s : Guarded σ) : (expandPath tree hook path s).2.chain = s.chain :=
  (expand tree hook path s).unwound

@[simp] theorem chain_expandText (tree : Tree) (hook : String → StateM σ String) (text : String)
    (s : Guarded σ) : (expandText tree hook text s).2.chain = s.chain :=
  (expandParts tree hook (template text) s).unwound

/-- The value that is neither a string nor null at the end of the whole-value references that start
at a path. -/
def follow (tree : Tree) (path : String) (s : Guarded σ) : Unwound σ (Option Json) s.chain :=
  if _hc : s.chain.contains path then ⟨none, s, rfl⟩
  else
    match _ht : target tree path with
    | .text inner =>
      match single? inner with
      | none => ⟨none, s, rfl⟩
      | some next =>
        let typed := follow tree next (s.push path)
        ⟨typed.value, typed.after.pop path, by simp [typed.unwound]⟩
    | .typed value => ⟨some value, s, rfl⟩
    | _ => ⟨none, s, rfl⟩
termination_by remaining tree s.chain
decreasing_by exact remaining_lt _hc _ht

/-- `follow`, as an operation on the state. -/
def typedTarget (tree : Tree) (path : String) : StateM (Guarded σ) (Option Json) :=
  fun s => (follow tree path s).run

@[simp] theorem chain_typedTarget (tree : Tree) (path : String) (s : Guarded σ) :
    (typedTarget tree path s).2.chain = s.chain := (follow tree path s).unwound

/-- The value of another type that a text stands for as a whole-value reference. -/
def wholeValue (tree : Tree) (text : String) : StateM (Guarded σ) (Option Json) :=
  match single? text with
  | none => pure none
  | some path => do
    let typed ← typedTarget tree path
    match typed with
    | none => pure none
    | some value => do
      Tracing.step (.noted (typedEvent path))
      pure (some value)

@[simp] theorem chain_wholeValue (tree : Tree) (text : String) (s : Guarded σ) :
    (wholeValue tree text s).2.chain = s.chain := by
  unfold wholeValue
  cases single? text with
  | none => rfl
  | some path =>
    simp only [Observer.bind_apply]
    rw [← chain_typedTarget tree path s]
    cases (typedTarget tree path s).1 <;> rfl

/-- The value with its references resolved. A string that is one reference and nothing else takes the
type of its target. -/
def resolveValue (tree : Tree) (hook : String → StateM σ String) : Json → StateM (Guarded σ) Json
  | .string text => do
    let typed ← wholeValue tree text
    match typed with
    | some value => pure value
    | none => do
      let text ← expandText tree hook text
      pure (.string text)
  | value => pure value

@[simp] theorem chain_resolveValue (tree : Tree) (hook : String → StateM σ String) (value : Json)
    (s : Guarded σ) : (resolveValue tree hook value s).2.chain = s.chain := by
  cases value with
  | string text =>
    rw [resolveValue, Observer.bind_apply, ← chain_wholeValue tree text s]
    cases (wholeValue tree text s).1 with
    | none => exact chain_expandText tree hook text _
    | some value => rfl
  | _ => rfl

end Guarded

end DesignTokens.Reference
