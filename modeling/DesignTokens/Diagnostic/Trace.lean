import DesignTokens.Diagnostic.Event

/-!
# Traces

Resolving a value takes steps that somebody may want to see: diagnostics, a mark for every token that
the expansion of references enters and leaves, and one for every function that is applied.

A computation that is `Tracing` takes such steps. `Traced` collects them in a trace beside the value.
A state that observes steps takes each of them in as it comes; `Traced.perform` takes in a whole trace.
-/

namespace DesignTokens

/-- A step of a resolution. -/
inductive Step where
  /-- The resolution of the token at a path begins. -/
  | entered (path : String)
  /-- The resolution of the token ends. -/
  | left
  /-- A diagnostic. -/
  | raised (event : Event)
  /-- An event for the log alone. -/
  | noted (event : Event)
  /-- The expansion of a reference to a path begins. -/
  | opened (path : String)
  /-- The token at a path has been expanded to a text, which goes to the expansion hook. -/
  | expanded (path : String) (text : String)
  /-- The expansion of a reference to a path ends. -/
  | closed (path : String)
  /-- A function of the catalog is applied to some arguments. -/
  | applied (name : String) (arguments : List String)
  deriving DecidableEq, Repr

/-- The event of a diagnostic step. -/
def Step.raised? : Step → Option Event
  | .raised event => some event
  | _ => none

/-- The event of a step that is for the log alone. -/
def Step.noted? : Step → Option Event
  | .noted event => some event
  | _ => none

/-- A monad whose computations take steps. -/
class Tracing (m : Type → Type) where
  step : Step → m Unit

namespace Tracing

/-- Raises a diagnostic. -/
def raise {m : Type → Type} [Tracing m] (event : Event) : m Unit := step (.raised event)

end Tracing

/-- A type of states that take steps in. -/
class Observer (σ : Type) where
  observe : σ → Step → σ

namespace Observer

variable {σ : Type} [Observer σ]

/-- The state after some steps. -/
def after (s : σ) (steps : List Step) : σ := steps.foldl observe s

@[simp] theorem after_nil (s : σ) : after s [] = s := rfl

@[simp] theorem after_cons (s : σ) (t : Step) (steps : List Step) :
    after s (t :: steps) = after (observe s t) steps := rfl

@[simp] theorem after_append (s : σ) (steps more : List Step) :
    after s (steps ++ more) = after (after s steps) more := List.foldl_append

/-- What every step keeps holds after some steps. -/
theorem after_of_kept {I : σ → Prop} (kept : ∀ s t, I s → I (observe s t)) {s : σ} (hs : I s)
    (steps : List Step) : I (after s steps) := by
  induction steps generalizing s with
  | nil => exact hs
  | cons t steps ih => exact ih (kept s t hs)

instance : Tracing (StateM σ) where
  step t := modify fun s => observe s t

@[simp] theorem step_apply (t : Step) (s : σ) :
    (Tracing.step t : StateM σ Unit) s = ((), observe s t) := rfl

omit [Observer σ] in
theorem bind_apply {α β : Type} (x : StateM σ α) (f : α → StateM σ β) (s : σ) :
    (x >>= f) s = f (x s).1 (x s).2 := rfl

end Observer

/-- A value with the steps that led to it. -/
@[ext]
structure Traced (α : Type) where
  value : α
  steps : List Step

namespace Traced

variable {α β : Type}

instance : Monad Traced where
  pure value := ⟨value, []⟩
  bind x f :=
    let y := f x.value
    ⟨y.value, x.steps ++ y.steps⟩

/-- One step. -/
def step (s : Step) : Traced Unit := ⟨(), [s]⟩

instance : Tracing Traced := ⟨step⟩

/-- The diagnostics of a trace, in order. -/
def events (x : Traced α) : List Event := x.steps.filterMap Step.raised?

/-- The events of a trace that are for the log alone, in order. -/
def notes (x : Traced α) : List Event := x.steps.filterMap Step.noted?

/-- Whether a diagnostic with a code is raised. -/
def raises (x : Traced α) (code : Code) : Bool := x.events.any (·.code == code)

@[simp] theorem value_pure (a : α) : (pure a : Traced α).value = a := rfl

@[simp] theorem steps_pure (a : α) : (pure a : Traced α).steps = [] := rfl

@[simp] theorem value_bind (x : Traced α) (f : α → Traced β) :
    (x >>= f).value = (f x.value).value := rfl

@[simp] theorem steps_bind (x : Traced α) (f : α → Traced β) :
    (x >>= f).steps = x.steps ++ (f x.value).steps := rfl

@[simp] theorem value_step (t : Step) : (Tracing.step t : Traced Unit).value = () := rfl

@[simp] theorem steps_step (t : Step) : (Tracing.step t : Traced Unit).steps = [t] := rfl

@[simp] theorem events_pure (a : α) : (pure a : Traced α).events = [] := rfl

@[simp] theorem events_bind (x : Traced α) (f : α → Traced β) :
    (x >>= f).events = x.events ++ (f x.value).events := List.filterMap_append

@[simp] theorem events_step (t : Step) :
    (Tracing.step t : Traced Unit).events = t.raised?.toList := by
  cases t <;> rfl

@[simp] theorem events_raise (e : Event) : (Tracing.raise e : Traced Unit).events = [e] := rfl

theorem raises_iff {x : Traced α} {code : Code} :
    x.raises code = true ↔ ∃ e ∈ x.events, e.code = code := by
  simp [raises]

section Perform

variable {σ : Type} [Observer σ]

/-- The value of a trace, with all its steps taken in. -/
def perform (x : Traced α) : StateM σ α := fun s => (x.value, Observer.after s x.steps)

@[simp] theorem perform_apply (x : Traced α) (s : σ) :
    x.perform s = (x.value, Observer.after s x.steps) := rfl

theorem perform_pure (a : α) : (pure a : Traced α).perform = (pure a : StateM σ α) := rfl

theorem perform_step (t : Step) :
    (Tracing.step t : Traced Unit).perform = (Tracing.step t : StateM σ Unit) := rfl

/-- Steps are taken in one after another. -/
theorem perform_bind (x : Traced α) (f : α → Traced β) :
    (x >>= f).perform = (x.perform >>= fun a => (f a).perform : StateM σ β) := by
  funext s
  change (_, _) = (_, _)
  simp

end Perform

end Traced

end DesignTokens
