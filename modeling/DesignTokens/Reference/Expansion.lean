import DesignTokens.Diagnostic.Trace
import DesignTokens.Json.Printer
import DesignTokens.Reference.Placeholder
import DesignTokens.Tree.Lookup

/-!
# Expanding references

Every placeholder of a text is replaced by what its token stands for: the expanded text of a string
token, the JSON text of any other value. References are followed depth first, along a chain of the
paths whose tokens are being expanded. A path that is already on the chain is a cycle; its placeholder
stays as it is written, as does one whose path leads to no token, to a group or to a null value.

The chain grows only by paths of the tree that are not on it yet, so expansion ends. A hook sees the
text of every expanded token while the token is still on the chain.
-/

namespace DesignTokens.Reference

/-- What a path leads to. -/
inductive Target where
  /-- A token with a string value. -/
  | text (inner : String)
  /-- A token with a value that is neither a string nor null. -/
  | typed (value : Json)
  /-- A token with a null value. -/
  | null
  | group
  /-- No node at all, or a raw entry. -/
  | missing

/-- What a path leads to in a tree. -/
def target (tree : Tree) (path : String) : Target :=
  match tree.node? path with
  | some (.token t) =>
    match t.value with
    | .string inner => .text inner
    | .null => .null
    | value => .typed value
  | some (.group _) => .group
  | _ => .missing

theorem mem_paths_of_target {tree : Tree} {path inner : String}
    (h : target tree path = .text inner) : path ∈ tree.paths := by
  unfold target at h
  split at h
  · rename_i t ht
    exact Tree.mem_paths_of_token? (t := t) (by simp [Tree.token?, ht, Node.token?])
  · simp at h
  · simp at h

/-- How many paths of a tree are not on a chain. -/
def remaining (tree : Tree) (chain : List String) : Nat :=
  (tree.paths.filter fun p => !chain.contains p).length

theorem length_filter_lt {α : Type} {p q : α → Bool} {l : List α} (hpq : ∀ a, p a → q a)
    {a : α} (ha : a ∈ l) (hq : q a) (hp : p a = false) :
    (l.filter p).length < (l.filter q).length := by
  induction l with
  | nil => simp at ha
  | cons b l ih =>
    have hle : (l.filter p).length ≤ (l.filter q).length := by
      rw [← List.countP_eq_length_filter, ← List.countP_eq_length_filter]
      exact List.countP_mono_left fun x _ hx => hpq x hx
    rcases List.mem_cons.1 ha with rfl | hm
    · simp only [List.filter_cons, hp, hq, Bool.false_eq_true, ↓reduceIte, List.length_cons]
      omega
    · have := ih hm
      rw [List.filter_cons, List.filter_cons]
      by_cases hb : p b = true
      · simp only [hb, hpq b hb, ↓reduceIte, List.length_cons]
        omega
      · by_cases hc : q b = true
        · simp only [hb, hc, ↓reduceIte, List.length_cons, Bool.false_eq_true]
          omega
        · simp only [hb, hc, Bool.false_eq_true, ↓reduceIte]
          omega

/-- A path of the tree that is put on the chain leaves fewer paths. -/
theorem remaining_lt {tree : Tree} {chain : List String} {path inner : String}
    (hc : ¬ chain.contains path = true) (ht : target tree path = .text inner) :
    remaining tree (chain ++ [path]) < remaining tree chain := by
  refine length_filter_lt (a := path) ?_ (mem_paths_of_target ht) (by simpa using hc) (by simp)
  intro a ha
  simp only [List.contains_eq_mem, List.mem_append, List.mem_singleton, Bool.not_eq_eq_eq_not,
    Bool.not_true, decide_eq_false_iff_not, not_or] at ha ⊢
  exact ha.1

/-- The warning about a path that is already on the chain. -/
def cycleEvent (chain : List String) (path : String) : Event :=
  (Event.warning .referenceCycle s!"Circular reference to '{path}'"
    |>.note "reference" path).note "chain" (" -> ".intercalate (chain ++ [path]))

/-- The warning about a path that leads to a group. -/
def groupEvent (path : String) : Event :=
  (Event.warning .referenceToGroup s!"Reference '{path}' points at a group, not a token").note
    "reference" path

/-- The warning about a path that leads nowhere. -/
def missingEvent (path : String) : Event :=
  (Event.warning .unresolvedReference s!"Unresolved reference '{path}'").note "reference" path

/-- The warning about a path that leads to a null value. -/
def nullEvent (path : String) : Event :=
  (Event.warning .invalidToken s!"Token '{path}' has a null value").note "reference" path

/-- The note that a whole-value reference takes the type of its target. -/
def typedEvent (path : String) : Event :=
  (Event.debug .plainDebug "Whole-value reference resolved to typed value").note "reference" path

/-- A placeholder that stays as it is written, for the given reason. -/
def keep (path : String) (reason : Event) : Traced String := do
  Tracing.raise reason
  pure (placeholderText path)

/-- The text of some parts, with every placeholder expanded. -/
def expandParts (tree : Tree) (hook : String → Traced String) (chain : List String)
    (parts : List Part) : Traced (List Char) :=
  match parts with
  | [] => pure []
  | .char c :: parts => do
    let others ← expandParts tree hook chain parts
    pure (c :: others)
  | .placeholder path :: parts =>
    let text : Traced String :=
      if _hc : chain.contains path then keep path (cycleEvent chain path)
      else
        match _ht : target tree path with
        | .text inner =>
          Tracing.step (.opened path) >>= fun _ =>
          expandParts tree hook (chain ++ [path]) (template inner) >>= fun inside => do
            Tracing.step (.expanded path (String.ofList inside))
            let text ← hook (String.ofList inside)
            Tracing.step (.closed path)
            pure text
        | .typed value => pure value.render
        | .null => keep path (nullEvent path)
        | .group => keep path (groupEvent path)
        | .missing => keep path (missingEvent path)
    text >>= fun text => do
      let others ← expandParts tree hook chain parts
      pure (text.toList ++ others)
termination_by (remaining tree chain, parts.length)
decreasing_by
  · exact Prod.Lex.right _ (by simp)
  · exact Prod.Lex.left _ _ (remaining_lt _hc _ht)
  · exact Prod.Lex.right _ (by simp)

/-- A text with every placeholder expanded. -/
def expandText (tree : Tree) (hook : String → Traced String) (chain : List String)
    (text : String) : Traced String := do
  let chars ← expandParts tree hook chain (template text)
  pure (String.ofList chars)

/-- The value that is neither a string nor null at the end of the whole-value references that start
at a path. -/
def typedTarget (tree : Tree) (chain : List String) (path : String) : Traced (Option Json) :=
  if _hc : chain.contains path then pure none
  else
    match _ht : target tree path with
    | .text inner =>
      match single? inner with
      | none => pure none
      | some next => do
        Tracing.step (.opened path)
        let value ← typedTarget tree (chain ++ [path]) next
        Tracing.step (.closed path)
        pure value
    | .typed value => pure (some value)
    | _ => pure none
termination_by remaining tree chain
decreasing_by exact remaining_lt _hc _ht

/-- The value of another type that a text stands for as a whole-value reference. -/
def wholeValue (tree : Tree) (chain : List String) (text : String) : Traced (Option Json) :=
  match single? text with
  | none => pure none
  | some path => do
    let typed ← typedTarget tree chain path
    match typed with
    | none => pure none
    | some value => do
      Tracing.step (.noted (typedEvent path))
      pure (some value)

/-- The value with its references resolved. A string that is one reference and nothing else takes the
type of its target. -/
def resolveValue (tree : Tree) (hook : String → Traced String) (chain : List String) :
    Json → Traced Json
  | .string text => do
    let typed ← wholeValue tree chain text
    match typed with
    | some value => pure value
    | none => do
      let text ← expandText tree hook chain text
      pure (.string text)
  | value => pure value

end DesignTokens.Reference
