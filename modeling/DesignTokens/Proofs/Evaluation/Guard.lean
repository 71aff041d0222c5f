import DesignTokens.Proofs.Evaluation
import DesignTokens.Proofs.Expression.Signature

/-!
# The guard of evaluation

Evaluation carries the signatures of the calls around an expression along and refuses a call whose
signature is among them. From the text of an expression this never comes to pass: the signatures
around a text all have more opening parentheses than the text. So evaluation does what it would do
without a guard.

The program keeps these signatures on one stack, which it changes as it goes. On a state with such a
stack, evaluation leaves the stack as it found it, and does else what it does with the signatures
passed down.
-/

namespace DesignTokens.Expression

variable {catalog : Catalog} {settings : Settings}

section Unguarded

variable {m : Type → Type} [Monad m] [Tracing m]

mutual

/-- The text that an expression evaluates to if no call is refused. -/
def evaluateFreely (catalog : Catalog) (settings : Settings) : Expression → m String
  | .literal text => pure text
  | .call source name arguments => do
    let args ← evaluateAllFreely catalog settings arguments
    apply catalog settings source name args

/-- `evaluateFreely` of each expression, from left to right. -/
def evaluateAllFreely (catalog : Catalog) (settings : Settings) : List Expression → m (List String)
  | [] => pure []
  | e :: es => do
    let text ← evaluateFreely catalog settings e
    let texts ← evaluateAllFreely catalog settings es
    pure (text :: texts)

end

theorem evaluateAll_eq_evaluateAllFreely {enclosing args : List String}
    (h : ∀ arg ∈ args, (evaluate catalog settings enclosing (parse arg) : m String) =
      evaluateFreely catalog settings (parse arg)) :
    (evaluateAll catalog settings enclosing (args.map parse) : m (List String)) =
      evaluateAllFreely catalog settings (args.map parse) := by
  induction args with
  | nil => rw [List.map_nil, evaluateAll, evaluateAllFreely]
  | cons arg args ih =>
    have others := ih fun other ho => h other (List.mem_cons_of_mem _ ho)
    rw [List.map_cons, evaluateAll, evaluateAllFreely, h arg (by simp), others]

/-- Inside calls with more opening parentheses, the guard refuses nothing. -/
theorem evaluate_eq_evaluateFreely {enclosing : List String} {text : String}
    (h : ∀ signature ∈ enclosing, parens text.toList < parens signature.toList) :
    (evaluate catalog settings enclosing (parse text) : m String) =
      evaluateFreely catalog settings (parse text) := by
  induction text using argument_induction generalizing enclosing with
  | literal text hc =>
    rw [parse_of_not_isCall (parse?_eq_none_iff.1 hc), evaluate, evaluateFreely]
  | call text call hc ih =>
    have own : (call.arguments.map parse).map source = call.arguments := by
      simp [Function.comp_def]
    have fresh : ¬ enclosing.contains call.signature = true := by
      intro hm
      have more := h call.signature (by simpa using hm)
      rw [parens_signature hc] at more
      exact Nat.lt_irrefl _ more
    rw [parse_of_call hc, evaluate, evaluateFreely, own, if_neg fresh,
      evaluateAll_eq_evaluateAllFreely]
    intro arg ha
    have fewer : parens arg.toList < parens text.toList := ArgumentOf.parens_lt ⟨call, hc, ha⟩
    apply ih arg ha
    intro signature hs
    rcases List.mem_append.1 hs with hs | hs
    · exact fewer.trans (h signature hs)
    · obtain rfl := List.mem_singleton.1 hs
      rwa [parens_signature hc]

/-- A text evaluates as it does without a guard. -/
theorem evaluateText_eq_evaluateFreely (text : String) :
    (evaluateText catalog settings [] text : m String) =
      evaluateFreely catalog settings (parse text) :=
  evaluate_eq_evaluateFreely (by simp)

end Unguarded

/-- A state with the stack that evaluation keeps in it. -/
structure Stacked (σ : Type) where
  /-- The signatures of the calls being evaluated, the outermost first. -/
  stack : List String
  /-- What observes the steps. -/
  state : σ

namespace Stacked

variable {σ : Type} [Observer σ]

instance : Observer (Stacked σ) := ⟨fun s t => { s with state := Observer.observe s.state t }⟩

/-- Puts a signature on the stack. -/
def push (signature : String) : StateM (Stacked σ) Unit :=
  modify fun s => { s with stack := s.stack ++ [signature] }

/-- Takes the last signature off the stack. -/
def pop : StateM (Stacked σ) Unit := modify fun s => { s with stack := s.stack.dropLast }

/-- A computation with a signature on the stack, which is taken off again. -/
def within {α : Type} (signature : String) (x : StateM (Stacked σ) α) : StateM (Stacked σ) α := do
  push signature
  let result ← x
  pop
  pure result

mutual

/-- The text that an expression evaluates to, on a stack. -/
def evaluate (catalog : Catalog) (settings : Settings) : Expression → StateM (Stacked σ) String
  | .literal text => pure text
  | .call source name arguments => do
    let signature := Call.signature ⟨name, arguments.map Expression.source⟩
    let s ← get
    if s.stack.contains signature then do
      Tracing.raise (reentrantEvent name signature s.stack.length)
      pure source
    else within signature do
      let args ← evaluateAll catalog settings arguments
      apply catalog settings source name args

/-- `evaluate` of each expression, from left to right. -/
def evaluateAll (catalog : Catalog) (settings : Settings) :
    List Expression → StateM (Stacked σ) (List String)
  | [] => pure []
  | e :: es => do
    let text ← evaluate catalog settings e
    let texts ← evaluateAll catalog settings es
    pure (text :: texts)

end

/-- The text that a text evaluates to, on a stack. -/
def evaluateText (catalog : Catalog) (settings : Settings) (text : String) :
    StateM (Stacked σ) String :=
  evaluate catalog settings (parse text)

/-- Taking steps in leaves the stack alone. -/
@[simp] theorem after_eq (s : Stacked σ) (steps : List Step) :
    Observer.after s steps = ⟨s.stack, Observer.after s.state steps⟩ := by
  induction steps generalizing s with
  | nil => rfl
  | cons t steps ih => exact ih _

@[simp] theorem stack_perform {α : Type} (x : Traced α) (s : Stacked σ) :
    (x.perform s).2.stack = s.stack := by
  rw [Traced.perform_apply, after_eq]

/-- What a computation does with a signature on the stack, it does without it on the stack, if it does
what a trace says. -/
theorem within_eq {α : Type} {signature : String} {x : StateM (Stacked σ) α} {t : Traced α}
    {s : Stacked σ}
    (h : x ⟨s.stack ++ [signature], s.state⟩ = t.perform ⟨s.stack ++ [signature], s.state⟩) :
    within signature x s = t.perform s := by
  have taken : within signature x s =
      ((x ⟨s.stack ++ [signature], s.state⟩).1,
        ⟨(x ⟨s.stack ++ [signature], s.state⟩).2.stack.dropLast,
          (x ⟨s.stack ++ [signature], s.state⟩).2.state⟩) := rfl
  rw [taken, h]
  simp

mutual

/-- On a stack, an expression evaluates as it does inside the calls of the signatures on it. -/
theorem evaluate_eq :
    (e : Expression) → (s : Stacked σ) → evaluate catalog settings e s =
      (Expression.evaluate catalog settings s.stack e : Traced String).perform s
  | .literal text, s => by
    rw [evaluate, Expression.evaluate]
    rfl
  | .call source name arguments, s => by
    rw [evaluate, Expression.evaluate]
    split
    · rename_i hc
      exact congrFun (if_pos hc) s
    · rename_i hc
      refine (congrFun (if_neg hc) s).trans (within_eq ?_)
      rw [Observer.bind_apply, evaluateAll_eq arguments, Traced.perform_bind, Observer.bind_apply]
      exact congrFun (perform_apply source name _).symm _

theorem evaluateAll_eq :
    (es : List Expression) → (s : Stacked σ) → evaluateAll catalog settings es s =
      (Expression.evaluateAll catalog settings s.stack es : Traced _).perform s
  | [], s => by
    rw [evaluateAll, Expression.evaluateAll]
    rfl
  | e :: es, s => by
    rw [evaluateAll, Expression.evaluateAll, Traced.perform_bind, Observer.bind_apply,
      Observer.bind_apply, evaluate_eq e s, Observer.bind_apply, evaluateAll_eq es, stack_perform,
      Traced.perform_bind]
    rfl

end

/-- On a stack, a text evaluates as it does inside the calls of the signatures on it, and the stack is
left as it was. -/
theorem evaluateText_eq (text : String) (s : Stacked σ) :
    evaluateText catalog settings text s =
      (Expression.evaluateText catalog settings s.stack text : Traced String).perform s :=
  evaluate_eq (parse text) s

end Stacked

end DesignTokens.Expression
