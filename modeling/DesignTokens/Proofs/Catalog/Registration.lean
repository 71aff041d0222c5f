import DesignTokens.Catalog.Builtin
import DesignTokens.Proofs.Catalog.Listing
import DesignTokens.Proofs.Expression.Grammar
import DesignTokens.Proofs.Text.Ends

/-!
# Registering functions

A catalog is a finite map that is written name by name: what it says of a name is settled by the last
operation on that name, however the operations on other names stand in between. A registration that is
refused is none of these operations. Every catalog that is reached lists what it holds, and the names
that are accepted are those that the expression language can call.
-/

namespace DesignTokens

open Expression

namespace FunctionInfo

/-- A text is a letter or an underscore and then letters, digits, underscores and hyphens. -/
def NamePattern (name : List Char) : Prop :=
  ∃ first rest, name = first :: rest ∧ (first.isAlpha ∨ first = '_') ∧
    ∀ c ∈ rest, c.isAlphanum ∨ c = '_' ∨ c = '-'

/-- A signature starts with the call of a name. -/
def StartsCall (name signature : String) : Prop :=
  name.toList ++ ['('] <+: signature.toList

/-- The record can be registered. -/
structure Accepted (info : FunctionInfo) : Prop where
  named : NamePattern info.name.toList
  signed : StartsCall info.name info.signature

end FunctionInfo

namespace Catalog

open FunctionInfo

/-- What callers do to a catalog. -/
inductive Operation where
  | register (info : FunctionInfo) (body : FunctionBody)
  | unregister (name : String)

/-- An operation settles what stands under a name. -/
def Operation.Settles (name : String) : Operation → Prop
  | .register info _ => info.name = name ∧ info.Accepted
  | .unregister other => other = name

/-- The catalog that is kept after an operation. -/
def apply (c : Catalog) : Operation → Catalog
  | .register info body =>
    match c.register info body with
    | .ok registered => registered
    | .error _ => c
  | .unregister name => (c.unregister name).2

/-- The catalog after some operations. -/
def after (c : Catalog) (ops : List Operation) : Catalog := ops.foldl apply c

/-- The catalog to start with: the built-in one or the empty one. -/
def start (builtins : Bool) : Catalog := if builtins then builtin else empty

/-- The registrations that the catalog to start with comes from. -/
def setup (builtins : Bool) : List Operation :=
  if builtins then builtinEntries.map fun entry => .register entry.info entry.body else []

/-- A function stands under a name after some operations: its registration was accepted, and no later
operation settled the name. -/
structure Stands (ops : List Operation) (name : String) (entry : CatalogEntry) : Prop where
  own : entry.info.name = name
  accepted : entry.info.Accepted
  last : ∃ earlier later, ops = earlier ++ .register entry.info entry.body :: later ∧
    ∀ op ∈ later, ¬ op.Settles name

/-- The answers of a catalog about a name are those of an entry, or of no entry. -/
structure Answers (c : Catalog) (name : String) (entry : Option CatalogEntry) : Prop where
  get : c.get? name = entry.map (·.body)
  info : c.info? name = entry.map (·.info)
  contains : c.contains name = entry.isSome
  call : ∀ args settings,
    c.call? name args settings = entry.map fun entry => entry.body ⟨args⟩ settings

/-- A registration is refused for the name, or else for the signature, or it takes place; a refusal
leaves the catalog that is kept as it is. -/
structure Registers (c : Catalog) (info : FunctionInfo) (body : FunctionBody) : Prop where
  invalidName : c.register info body = .error (.invalidName info.name) ↔
    ¬ NamePattern info.name.toList
  signatureMismatch : c.register info body = .error (.signatureMismatch info.name info.signature) ↔
    NamePattern info.name.toList ∧ ¬ StartsCall info.name info.signature
  registered : (∃ registered, c.register info body = .ok registered) ↔ info.Accepted
  refused : ∀ error, c.register info body = .error error → c.apply (.register info body) = c

/-- A name can be called: with any well-nested text between parentheses it makes a call of itself. -/
def Callable (name : String) : Prop :=
  ∀ inner : String, WellNested inner.toList →
    Call.parse? (name ++ "(" ++ inner ++ ")") =
      some ⟨name, (splitArguments inner.toList).map String.ofList⟩

variable {c : Catalog} {name : String} {entry : CatalogEntry} {info : FunctionInfo}
  {body : FunctionBody} {ops : List Operation} {op : Operation}

theorem answers (c : Catalog) (name : String) : c.Answers name (KeyedList.get? c.entries name) where
  get := rfl
  info := rfl
  contains := rfl
  call args settings := by rw [call?, get?, Option.map_map]; rfl

section Register

theorem isName_iff {name : List Char} : Call.isName name = true ↔ NamePattern name := by
  cases name with
  | nil => simp [Call.isName, NamePattern]
  | cons first rest =>
    simp [Call.isName, Call.isNameStart, Call.isNameChar, NamePattern, or_assoc]

/-- A registration is refused for its name, or else for its signature, or it puts the function in. -/
theorem register_eq [Decidable (NamePattern info.name.toList)]
    [Decidable (StartsCall info.name info.signature)] :
    c.register info body =
      if ¬ NamePattern info.name.toList then .error (.invalidName info.name)
      else if ¬ StartsCall info.name info.signature then
        .error (.signatureMismatch info.name info.signature)
      else .ok (c.insert info body) := by
  have named : (!Call.isName info.name.toList) = true ↔ ¬ NamePattern info.name.toList := by
    rw [← isName_iff, Bool.not_eq_true', Bool.not_eq_true]
  have signed : (Text.afterStart? (info.name.toList ++ ['(']) info.signature.toList).isNone = true ↔
      ¬ StartsCall info.name info.signature := by
    rw [StartsCall, ← Text.isSome_afterStart?_iff, Option.not_isSome_iff_eq_none,
      Option.isNone_iff_eq_none]
  rw [register]
  simp only [named, signed]

theorem register_of_accepted (h : info.Accepted) :
    c.register info body = .ok (c.insert info body) := by
  classical
  rw [register_eq, if_neg (not_not.2 h.named), if_neg (not_not.2 h.signed)]

theorem registers (c : Catalog) (info : FunctionInfo) (body : FunctionBody) :
    c.Registers info body where
  invalidName := by
    classical
    rw [register_eq]
    split
    · simp [*]
    · split <;> simp_all
  signatureMismatch := by
    classical
    rw [register_eq]
    split
    · simp [*]
    · split <;> simp_all
  registered := by
    classical
    refine ⟨?_, fun accepted => ⟨_, register_of_accepted accepted⟩⟩
    rintro ⟨registered, done⟩
    rw [register_eq] at done
    split at done
    · simp at done
    · split at done
      · simp at done
      · rename_i named signed
        exact ⟨not_not.1 named, not_not.1 signed⟩
  refused error refusal := by rw [apply, refusal]

theorem apply_of_accepted (h : info.Accepted) :
    c.apply (.register info body) = c.insert info body := by
  rw [apply, register_of_accepted h]

theorem apply_of_not_accepted (h : ¬ info.Accepted) : c.apply (.register info body) = c := by
  cases result : c.register info body with
  | ok registered => exact absurd ((c.registers info body).registered.1 ⟨registered, result⟩) h
  | error error => exact (c.registers info body).refused error result

end Register

section Run

theorem InOrder.apply (h : c.InOrder) (op : Operation) : (c.apply op).InOrder := by
  cases op with
  | register info body =>
    by_cases accepted : info.Accepted
    · rw [apply_of_accepted accepted]
      exact h.insert info body
    · rwa [apply_of_not_accepted accepted]
  | unregister name => exact h.unregister name

theorem InOrder.after (h : c.InOrder) (ops : List Operation) : (c.after ops).InOrder := by
  induction ops generalizing c with
  | nil => exact h
  | cons op ops ih => exact ih (h.apply op)

theorem after_concat (c : Catalog) (ops : List Operation) (op : Operation) :
    c.after (ops ++ [op]) = (c.after ops).apply op := by simp [after]

/-- An operation that does not settle a name leaves what is found under it. -/
theorem get?_apply_of_not_settles (h : c.InOrder) (other : ¬ op.Settles name) :
    KeyedList.get? (c.apply op).entries name = KeyedList.get? c.entries name := by
  cases op with
  | register info body =>
    by_cases accepted : info.Accepted
    · rw [apply_of_accepted accepted, insert, KeyedList.get?_insert, if_neg]
      exact fun own => other ⟨own, accepted⟩
    · rw [apply_of_not_accepted accepted]
  | unregister removed =>
    show KeyedList.get? (KeyedList.erase c.entries removed) name = _
    rw [KeyedList.get?_erase h.sorted]
    exact if_neg other

/-- After an operation that settles a name, the function that it registered is found there. -/
theorem get?_apply_of_settles (h : c.InOrder) (settles : op.Settles name) :
    KeyedList.get? (c.apply op).entries name = some entry ↔
      op = .register entry.info entry.body := by
  cases op with
  | register info body =>
    obtain ⟨own, accepted⟩ := settles
    rw [apply_of_accepted accepted, insert, KeyedList.get?_insert, if_pos own, Option.some.injEq,
      Operation.register.injEq]
    constructor
    · rintro rfl
      exact ⟨rfl, rfl⟩
    · rintro ⟨rfl, rfl⟩
      rfl
  | unregister removed =>
    have own : removed = name := settles
    show KeyedList.get? (KeyedList.erase c.entries removed) name = _ ↔ _
    simp [KeyedList.get?_erase h.sorted, own]

/-- An element of a list with one more at the end is that one or stands before it. -/
theorem concat_eq_append_cons_iff {α : Type} {xs earlier later : List α} {x y : α} :
    xs ++ [x] = earlier ++ y :: later ↔
      (xs = earlier ∧ x = y ∧ later = []) ∨
        ∃ rest, later = rest ++ [x] ∧ xs = earlier ++ y :: rest := by
  constructor
  · intro same
    rcases List.eq_nil_or_concat later with rfl | ⟨rest, last, rfl⟩
    · obtain ⟨rfl, rfl⟩ := List.append_singleton_inj.1 same
      exact .inl ⟨rfl, rfl, rfl⟩
    · rw [List.concat_eq_append, ← List.cons_append, ← List.append_assoc] at same
      obtain ⟨rfl, rfl⟩ := List.append_singleton_inj.1 same
      exact .inr ⟨rest, List.concat_eq_append, rfl⟩
  · rintro (⟨rfl, rfl, rfl⟩ | ⟨rest, rfl, rfl⟩)
    · rfl
    · simp

theorem stands_concat_of_not_settles (other : ¬ op.Settles name) :
    Stands (ops ++ [op]) name entry ↔ Stands ops name entry := by
  constructor
  · rintro ⟨own, accepted, earlier, later, sequence, last⟩
    rcases concat_eq_append_cons_iff.1 sequence with ⟨-, rfl, -⟩ | ⟨rest, rfl, rfl⟩
    · exact absurd ⟨own, accepted⟩ other
    · exact ⟨own, accepted, earlier, rest, rfl, fun op hop => last op (List.mem_append_left _ hop)⟩
  · rintro ⟨own, accepted, earlier, later, rfl, last⟩
    refine ⟨own, accepted, earlier, later ++ [op], by simp, ?_⟩
    exact List.forall_mem_append.2 ⟨last, List.forall_mem_singleton.2 other⟩

theorem stands_concat_of_settles (settles : op.Settles name) :
    Stands (ops ++ [op]) name entry ↔ op = .register entry.info entry.body := by
  constructor
  · rintro ⟨-, -, earlier, later, sequence, last⟩
    rcases concat_eq_append_cons_iff.1 sequence with ⟨-, same, -⟩ | ⟨rest, rfl, -⟩
    · exact same
    · exact absurd settles (last op (by simp))
  · rintro rfl
    exact ⟨settles.1, settles.2, ops, [], rfl, by simp⟩

/-- What is found under a name is what stands there. -/
theorem get?_after_iff :
    KeyedList.get? (empty.after ops).entries name = some entry ↔ Stands ops name entry := by
  induction ops using List.reverseRecOn with
  | nil =>
    refine ⟨nofun, ?_⟩
    rintro ⟨-, -, earlier, later, sequence, -⟩
    simp at sequence
  | append_singleton ops op ih =>
    have inOrder := inOrder_empty.after ops
    rw [after_concat]
    by_cases settles : op.Settles name
    · rw [get?_apply_of_settles inOrder settles, stands_concat_of_settles settles]
    · rw [get?_apply_of_not_settles inOrder settles, stands_concat_of_not_settles settles, ih]

end Run

section Start

-- The characters are taken from the literals, as the bytes of a string are slow to decode.
theorem accepted_ofList {name signature : List Char} {family : FunctionFamily} {description : String}
    (named : Call.isName name = true) (signed : (name ++ ['(']).isPrefixOf signature = true) :
    Accepted ⟨String.ofList name, family, String.ofList signature, description⟩ where
  named := by
    rw [String.toList_ofList]
    exact isName_iff.1 named
  signed := by
    rw [StartsCall, String.toList_ofList, String.toList_ofList]
    exact List.isPrefixOf_iff_prefix.1 signed

theorem accepted_of_mem_builtinEntries (h : entry ∈ builtinEntries) : entry.info.Accepted := by
  revert entry
  simp only [builtinEntries, ColorFunctions.table, ContrastFunctions.table, TypographyFunctions.table,
    MathFunctions.table, MathFunctions.functions, List.map_cons, List.map_nil, List.forall_mem_append,
    List.forall_mem_cons, List.not_mem_nil, false_implies, implies_true, and_true]
  and_intros <;> exact accepted_ofList (by decide) (by decide)

/-- The built-in functions could have been registered one by one. -/
theorem start_eq_after (builtins : Bool) : start builtins = empty.after (setup builtins) := by
  cases builtins with
  | false => rfl
  | true =>
    rw [start, setup, if_pos rfl, if_pos rfl, builtin, after, List.foldl_map]
    refine List.foldl_ext _ _ _ fun c entry h => ?_
    exact (apply_of_accepted (accepted_of_mem_builtinEntries h)).symm

theorem after_start (builtins : Bool) (ops : List Operation) :
    (start builtins).after ops = empty.after (setup builtins ++ ops) := by
  rw [start_eq_after, after, after, after, List.foldl_append]

end Start

theorem callable_of_accepted (h : info.Accepted) : Callable info.name := by
  intro inner nested
  have named := isName_iff.2 h.named
  have text : (info.name ++ "(" ++ inner ++ ")").toList =
      info.name.toList ++ '(' :: inner.toList ++ [')'] := by simp
  have spelled : Call.Spells info.name.toList inner.toList (info.name ++ "(" ++ inner ++ ")") :=
    ⟨by rw [text, Call.trim_spelled named], named, nested⟩
  rw [spelled.parse?_eq, String.ofList_toList]

/-- A catalog is a finite map from names to functions. What it answers about a name is what the last
operation that settled the name says, where the built-in functions count as registered before all
others. A registration is refused or takes place as a whole, a removal tells whether the name was
there, all listings agree, and every name that is registered can be called. -/
theorem refines_finite_map (builtins : Bool) (ops : List Operation) :
    let history := setup builtins ++ ops
    let c := (start builtins).after ops
    (∀ name entry, Stands history name entry → c.Answers name (some entry)) ∧
      (∀ name, (∀ entry, ¬ Stands history name entry) → c.Answers name none) ∧
      (∀ info body, c.Registers info body) ∧
      (∀ name, (c.unregister name).1 = true ↔ ∃ entry, Stands history name entry) ∧
      c.Listed ∧
      (∀ info body, (∃ registered, c.register info body = .ok registered) → Callable info.name) ∧
      ∀ name, c.contains name = true → Callable name := by
  intro history c
  have reached : c = empty.after history := after_start builtins ops
  have found {name : String} {entry : CatalogEntry} :
      KeyedList.get? c.entries name = some entry ↔ Stands history name entry := by
    rw [reached, get?_after_iff]
  have present {name : String} : c.contains name = true ↔ ∃ entry, Stands history name entry := by
    simp only [← found]
    exact Option.isSome_iff_exists
  refine ⟨fun name entry stands => ?_, fun name none => ?_, c.registers, fun name => present, ?_,
    fun info body registered => ?_, fun name here => ?_⟩
  · rw [← found.2 stands]
    exact c.answers name
  · have nothing : KeyedList.get? c.entries name = .none :=
      Option.eq_none_iff_forall_ne_some.2 fun entry here => none entry (found.1 here)
    rw [← nothing]
    exact c.answers name
  · rw [reached]
    exact (inOrder_empty.after history).listed
  · exact callable_of_accepted ((c.registers info body).registered.1 registered)
  · obtain ⟨entry, stands⟩ := present.1 here
    rw [← stands.own]
    exact callable_of_accepted stands.accepted

end Catalog

end DesignTokens
