import DesignTokens.Proofs.Reference.Occurrence
import DesignTokens.Reference.Expansion
import Mathlib.Data.List.Chain

/-!
# The graph of references

The tokens of a tree refer to one another: `References tree path other` says that the token at `path`
has a string value in which the placeholder of `other` occurs. This is what a tree says about its
references, whatever order they are expanded in.

`Acyclic tree path` says that every walk of references from a path ends. A text from which no cycle
can be reached has only acyclic paths in it, and the other way round.
-/

namespace DesignTokens.Reference

open Relation

/-- The token at a path has a string value. -/
def TextAt (tree : Tree) (path inner : String) : Prop :=
  ∃ t, tree.token? path = some t ∧ t.value = .string inner

/-- The token at a path has a string value in which the placeholder of another path occurs. -/
def References (tree : Tree) (path other : String) : Prop :=
  ∃ inner, TextAt tree path inner ∧ Occurs other inner

/-- A path can be reached from the placeholders of a text. -/
def Reaches (tree : Tree) (text path : String) : Prop :=
  ∃ start, Occurs start text ∧ ReflTransGen (References tree) start path

/-- A path refers to itself, directly or through others. -/
def OnCycle (tree : Tree) (path : String) : Prop := TransGen (References tree) path path

/-- A path on a cycle can be reached from the placeholders of a text. -/
def ReachesCycle (tree : Tree) (text : String) : Prop :=
  ∃ path, Reaches tree text path ∧ OnCycle tree path

/-- Every walk of references from a path ends. -/
def Acyclic (tree : Tree) (path : String) : Prop :=
  Acc (fun other path => References tree path other) path

variable {tree : Tree} {path other inner text : String}

theorem textAt_iff : TextAt tree path inner ↔ target tree path = .text inner := by
  rw [TextAt, target, Tree.token?]
  cases hn : tree.node? path with
  | none => simp
  | some node =>
    cases node with
    | token t =>
      simp only [Option.bind_some, Node.token?, Option.some.injEq, exists_eq_left']
      cases ht : t.value <;> simp
    | group children => simp [Node.token?]
    | raw value => simp [Node.token?]

/-- A token leads to its value if this is neither a string nor null. -/
theorem target_of_typed {t : Token} (h : tree.token? path = some t) (hs : t.value.text? = none)
    (hn : t.value ≠ .null) : target tree path = .typed t.value := by
  obtain ⟨node, hnode, ht⟩ := Option.bind_eq_some_iff.1 h
  cases node <;> simp [Node.token?] at ht
  subst ht
  simp only [target, hnode]
  split
  · rename_i inner hv
    simp [hv, Json.text?] at hs
  · rename_i hv
    exact absurd hv hn
  · rfl

theorem references_iff (h : target tree path = .text inner) :
    References tree path other ↔ other ∈ find inner := by
  rw [mem_find_iff]
  constructor
  · rintro ⟨text, ht, ho⟩
    rw [textAt_iff, h] at ht
    obtain rfl : inner = text := by simpa using ht
    exact ho
  · intro ho
    exact ⟨inner, textAt_iff.2 h, ho⟩

theorem target_of_references (h : References tree path other) :
    ∃ inner, target tree path = .text inner ∧ other ∈ find inner := by
  obtain ⟨inner, ht, ho⟩ := h
  exact ⟨inner, textAt_iff.1 ht, mem_find_iff.2 ho⟩

/-- What a text reaches is the least set of paths that holds every path whose placeholder occurs in the
text, and with the path of a string token every path whose placeholder occurs in its value. -/
theorem reaches_iff_mem_closed :
    Reaches tree text path ↔
      ∀ paths : Set String, (∀ start, Occurs start text → start ∈ paths) →
        (∀ step ∈ paths, ∀ inner, TextAt tree step inner → ∀ next, Occurs next inner → next ∈ paths) →
          path ∈ paths := by
  constructor
  · rintro ⟨start, ho, hr⟩ paths starts closed
    induction hr with
    | refl => exact starts start ho
    | tail _ hr ih =>
      obtain ⟨inner, ht, hn⟩ := hr
      exact closed _ ih inner ht _ hn
  · intro h
    refine h {path | Reaches tree text path} ?_ ?_
    · intro start ho
      exact ⟨start, ho, .refl⟩
    · rintro step ⟨start, ho, hr⟩ inner ht next hn
      exact ⟨start, ho, hr.tail ⟨inner, ht, hn⟩⟩

namespace Acyclic

/-- A path is acyclic if its token has no string value. -/
theorem of_target (h : ∀ inner, target tree path ≠ .text inner) : Acyclic tree path := by
  refine Acc.intro _ fun other ho => ?_
  obtain ⟨inner, ht, -⟩ := target_of_references ho
  exact absurd ht (h inner)

/-- A path is acyclic if all paths in the text of its token are. -/
theorem of_text (ht : target tree path = .text inner)
    (h : ∀ other ∈ find inner, Acyclic tree other) : Acyclic tree path := by
  constructor
  intro other ho
  exact h other ((references_iff ht).1 ho)

theorem of_references (h : Acyclic tree path) (ho : References tree path other) :
    Acyclic tree other :=
  h.inv ho

/-- Induction along the references of an acyclic path. -/
theorem induction {P : (path : String) → Acyclic tree path → Prop}
    (text : ∀ path inner (ha : Acyclic tree path) (ht : target tree path = .text inner),
      (∀ other (ho : other ∈ find inner), P other (ha.of_references ((references_iff ht).2 ho))) →
        P path ha)
    (other : ∀ path (ha : Acyclic tree path), (∀ inner, target tree path ≠ .text inner) → P path ha)
    (h : Acyclic tree path) : P path h := by
  induction h with
  | intro path hacc ih =>
    by_cases hn : ∃ inner, target tree path = .text inner
    · obtain ⟨inner, ht⟩ := hn
      exact text path inner _ ht fun next ho => ih next ((references_iff ht).2 ho)
    · exact other path _ fun inner ht => hn ⟨inner, ht⟩

theorem of_reflTransGen (h : Acyclic tree path) (ho : ReflTransGen (References tree) path other) :
    Acyclic tree other := by
  induction ho with
  | refl => exact h
  | tail _ hr ih => exact ih.of_references hr

theorem not_onCycle (h : Acyclic tree path) : ¬ OnCycle tree path := by
  have ht : Acc (TransGen fun other path => References tree path other) path := h.transGen
  clear h
  induction ht with
  | intro path _ ih =>
    intro hc
    have hs : TransGen (fun other path => References tree path other) path path :=
      transGen_swap.2 hc
    exact ih path hs hc

end Acyclic

/-- No cycle can be reached from acyclic paths. -/
theorem not_reachesCycle (h : ∀ path ∈ find text, Acyclic tree path) :
    ¬ ReachesCycle tree text := by
  rintro ⟨path, ⟨start, ho, hr⟩, hc⟩
  exact ((h start (mem_find_iff.2 ho)).of_reflTransGen hr).not_onCycle hc

/-- The placeholder of an acyclic path reaches no cycle. -/
theorem not_reachesCycle_placeholderText (hp : isPath path.toList) (ha : Acyclic tree path) :
    ¬ ReachesCycle tree (placeholderText path) := by
  apply not_reachesCycle
  rw [find_placeholderText hp]
  simpa using ha

/-- The text of an acyclic token reaches no cycle. -/
theorem not_reachesCycle_of_acyclic (ha : Acyclic tree path) (ht : target tree path = .text inner) :
    ¬ ReachesCycle tree inner := by
  apply not_reachesCycle
  intro other ho
  exact ha.of_references ((references_iff ht).2 ho)

section Walk

variable {start last : String} {walk : List String}

theorem reflTransGen_of_mem_walk (h : (start :: walk).IsChain (References tree))
    (hl : last ∈ start :: walk) : ReflTransGen (References tree) start last := by
  rcases List.mem_cons.1 hl with rfl | hl
  · exact .refl
  · have ht : (start :: walk).IsChain (TransGen (References tree)) := h.imp fun _ _ => .single
    exact (ht.rel_cons hl).to_reflTransGen

/-- A walk that comes back to a path it has met goes round a cycle. -/
theorem onCycle_of_walk (h : (walk ++ [last]).IsChain (References tree)) (hl : last ∈ walk) :
    OnCycle tree last := by
  obtain ⟨before, after, rfl⟩ := List.append_of_mem hl
  rw [List.append_assoc] at h
  have ht : (last :: (after ++ [last])).IsChain (TransGen (References tree)) :=
    h.right_of_append.imp fun _ _ => .single
  exact ht.rel_cons (by simp)

end Walk

end DesignTokens.Reference
