import DesignTokens.Proofs.Expression.Grammar

/-!
# Cutting at commas

A text is cut into pieces at the commas outside brackets and quotes. Some texts are `Segmented` if they
can be such pieces: none of them would be cut again, and nothing is open after any but the last. The
pieces of a text are, and segmented texts behind commas are cut into just these texts again.

So properties of a text come down to its pieces: it is well nested exactly if all of them are.
-/

namespace DesignTokens.Expression

open Text Nesting

variable {n : Nesting} {s rest piece inner text : List Char} {ps qs : List (List Char)}
variable {first : List Char} {others : List (List Char)}

theorem isOutside_iff : n.isOutside = true ↔ n = outside := by
  obtain ⟨parens, braces, quote⟩ := n
  simp [isOutside, outside, and_assoc]

theorem behindCommas_cons (piece : List Char) (ps : List (List Char)) :
    behindCommas (piece :: ps) = ',' :: (piece ++ behindCommas ps) := rfl

theorem feed_comma (hn : n.Proper) : n.feed ',' = n := feed_of_not_isStructural hn (by decide)

/-- Texts that are cut at none of their commas, with nothing open after any but the last. -/
structure Segmented (ps : List (List Char)) : Prop where
  solid : ∀ piece ∈ ps, outside.Solid piece
  settled : ∀ piece ∈ ps.dropLast, outside.feedAll piece = outside

namespace Segmented

theorem nil : Segmented [] := ⟨by simp, by simp⟩

theorem cons_iff :
    Segmented (piece :: ps) ↔
      outside.Solid piece ∧ (ps ≠ [] → outside.feedAll piece = outside) ∧ Segmented ps := by
  constructor
  · intro h
    refine ⟨h.solid piece (by simp), ?_, ?_, ?_⟩
    · intro hp
      exact h.settled piece (by simp [List.dropLast_cons_of_ne_nil hp])
    · intro p hp
      exact h.solid p (List.mem_cons_of_mem _ hp)
    · intro p hp
      apply h.settled p
      rw [List.dropLast_cons_of_ne_nil (by rintro rfl; simp at hp)]
      exact List.mem_cons_of_mem _ hp
  · rintro ⟨solid, settled, h⟩
    refine ⟨?_, ?_⟩
    · simpa [solid] using h.solid
    · cases ps with
      | nil => simp
      | cons q ps => simpa [settled] using h.settled

/-- Texts that may stand in the place of segments are segmented. -/
theorem map {f : List Char → List Char} (h : Segmented ps)
    (hf : ∀ piece ∈ ps, outside.Alike piece (f piece)) : Segmented (ps.map f) := by
  constructor
  · intro p hp
    obtain ⟨piece, hm, rfl⟩ := List.mem_map.1 hp
    exact (hf piece hm).solid (h.solid piece hm)
  · intro p hp
    rw [← List.map_dropLast] at hp
    obtain ⟨piece, hm, rfl⟩ := List.mem_map.1 hp
    rw [(hf piece (List.dropLast_subset _ hm)).kept, h.settled piece hm]

theorem of_prefix (h : Segmented qs) (hp : ps <+: qs) : Segmented ps := by
  obtain ⟨more, rfl⟩ := hp
  induction ps with
  | nil => exact nil
  | cons p ps ih =>
    obtain ⟨solid, settled, rest⟩ := cons_iff.1 h
    refine cons_iff.2 ⟨solid, fun hp => settled (by simp [hp]), ih rest⟩

end Segmented

section Blanks

theorem alike_trim (s : List Char) : outside.Alike s (trim s) :=
  (Alike.of_padded proper_outside (padded_trim s)).2

theorem alike_blank (s : List Char) : outside.Alike s (' ' :: s) :=
  (Alike.of_padded proper_outside ⟨[' '], [], by simp, by simp; decide, by simp⟩).1

end Blanks

section Cut

theorem solid_cons {c : Char} :
    n.Solid (c :: s) ↔ ¬ (c = ',' && n.isOutside) = true ∧ (n.feed c).Solid s := by
  rw [Solid, atEach_cons, Solid]
  refine and_congr_left fun _ => ?_
  rw [Bool.and_eq_true, decide_eq_true_eq, not_and, Bool.not_eq_true]
  refine forall_congr' fun _ => ⟨?_, fun whole _ => whole⟩
  intro whole
  by_cases out : n.isOutside = true
  · exact whole (by rw [isOutside_iff.1 out]; rfl)
  · simpa using out

/-- A text that is cut at none of its commas is one piece. -/
theorem pieces_of_solid (h : n.Solid s) : pieces n s = [s] := by
  induction s generalizing n with
  | nil => rfl
  | cons c s ih =>
    obtain ⟨whole, tail⟩ := solid_cons.1 h
    rw [pieces, if_neg whole, ih tail]

/-- A comma ends a piece if nothing is open there. -/
theorem pieces_append_comma (h : n.Solid piece) (hp : n.feedAll piece = outside) :
    pieces n (piece ++ ',' :: rest) = piece :: pieces outside rest := by
  induction piece generalizing n with
  | nil =>
    obtain rfl : n = outside := hp
    simp [pieces, isOutside_iff]
  | cons c piece ih =>
    obtain ⟨whole, tail⟩ := solid_cons.1 h
    rw [List.cons_append, pieces, if_neg whole, ih tail hp]

/-- Segmented texts behind commas are cut into these texts again. -/
theorem pieces_join (h : Segmented (first :: others)) :
    pieces outside (first ++ behindCommas others) = first :: others := by
  induction others generalizing first with
  | nil => simpa [behindCommas] using pieces_of_solid (h.solid first (by simp))
  | cons next others ih =>
    obtain ⟨solid, settled, tail⟩ := Segmented.cons_iff.1 h
    rw [behindCommas_cons, pieces_append_comma solid (settled (by simp)), ih tail]

/-- Where a text is cut, nothing is open. -/
theorem segmented_of_pieces (hn : n.Proper) (h : pieces n s = first :: others) :
    n.Solid first ∧ (others ≠ [] → n.feedAll first = outside) ∧ Segmented others := by
  induction s generalizing n first others with
  | nil =>
    obtain ⟨rfl, rfl⟩ := by simpa [pieces] using h
    exact ⟨atEach_nil _ _ _, by simp, .nil⟩
  | cons c s ih =>
    unfold pieces at h
    split at h
    · rename_i hc
      obtain ⟨-, rfl⟩ : c = ',' ∧ n = outside := by
        simpa [isOutside_iff] using hc
      obtain ⟨rfl, rfl⟩ := List.cons.inj h
      refine ⟨atEach_nil _ _ _, fun _ => rfl, ?_⟩
      obtain ⟨next, others, cut, -⟩ := exists_pieces_eq_cons outside s
      rw [cut]
      exact Segmented.cons_iff.2 (ih proper_outside cut)
    · rename_i hc
      obtain ⟨start, tail, cut, -⟩ := exists_pieces_eq_cons (n.feed c) s
      rw [cut] at h
      obtain ⟨rfl, rfl⟩ := List.cons.inj h
      obtain ⟨solid, settled, rest⟩ := ih (hn.feed c) cut
      exact ⟨solid_cons.2 ⟨hc, solid⟩, settled, rest⟩

theorem segmented_pieces (s : List Char) : Segmented (pieces outside s) := by
  obtain ⟨first, others, cut, -⟩ := exists_pieces_eq_cons outside s
  rw [cut]
  exact Segmented.cons_iff.2 (segmented_of_pieces proper_outside cut)

end Cut

section WellNested

theorem wellNested_append_comma (h : outside.feedAll piece = outside) :
    WellNested (piece ++ ',' :: rest) ↔ WellNested piece ∧ WellNested rest := by
  have behind : Covers outside (',' :: rest) ↔ Covers outside rest := by
    rw [Covers, atEach_cons, feed_comma proper_outside]
    simp [Covers]
  rw [wellNested_iff, wellNested_iff, wellNested_iff, Covers, atEach_append, feedAll_append, h,
    feedAll_cons, feed_comma proper_outside, ← Covers, ← Covers, behind]
  simp [outside, and_assoc]

/-- A text is well nested exactly if its pieces are. -/
theorem wellNested_join (h : Segmented (first :: others)) :
    WellNested (first ++ behindCommas others) ↔ ∀ piece ∈ first :: others, WellNested piece := by
  induction others generalizing first with
  | nil => simp [behindCommas]
  | cons next others ih =>
    obtain ⟨-, settled, tail⟩ := Segmented.cons_iff.1 h
    rw [behindCommas_cons, wellNested_append_comma (settled (by simp)), ih tail]
    simp only [List.forall_mem_cons]

theorem wellNested_iff_pieces (s : List Char) :
    WellNested s ↔ ∀ piece ∈ pieces outside s, WellNested piece := by
  obtain ⟨first, others, cut, joined⟩ := exists_pieces_eq_cons outside s
  have segmented := segmented_pieces s
  rw [cut] at segmented
  rw [cut, ← wellNested_join segmented, ← joined]

end WellNested

end DesignTokens.Expression
