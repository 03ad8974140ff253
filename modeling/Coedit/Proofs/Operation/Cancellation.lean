import Coedit.Proofs.Operation.NormalForm

/-!
# An operation and its inverse cancel out

The inverse of an operation leads back from every text that the operation leads to
(`Operation.apply_inverse`). This file proves the same without a text:

> `Operation.inverse_cancels`: an operation and its inverse compose in either order, and both
> compositions have the empty operation as their normal form.

The inverse of a list of runs meets these runs one by one, each its own inverse, since both cover
the same characters in between (`all_isIdentity_composedComponents_inverse`). What is deleted again
leaves no trace, and what is put back is deleted and inserted side by side. Neighbours merge, also
those of replacements that were not merged before, but what they delete in all is still what they
insert in all.
-/

namespace Coedit

/-- **Undoing runs and doing them again replaces nothing but by itself.** The first run of either
side is used up by that of the other, so the induction is on the runs. -/
theorem all_isIdentity_composedComponents_inverse (ps : List Piece) :
    (composedComponents (ps.map Piece.inverse) ps).all Component.isIdentity := by
  induction ps with
  | nil =>
    rw [List.map_nil, composedComponents_nil]
    rfl
  | cons p ps ih =>
    rw [List.map_cons]
    by_cases hp : p.isInsert
    · cases p with
      | insert i =>
        rw [Piece.inverse, composedComponents_delete, composedComponents_insert]
        exact all_isIdentity_onto_onto ih i
      | retain n => cases hp
      | delete d => cases hp
    · have hinv : ¬ p.inverse.isDelete := by rw [Piece.isDelete_inverse]; exact hp
      rw [composedComponents_both hinv hp, Piece.size_inverse,
        Piece.resume_of_le (Nat.le_of_eq p.size_inverse), Piece.resume_of_le (Nat.le_refl _)]
      cases p with
      | insert i => exact absurd rfl hp
      | retain n => exact all_onto_retain (fun _ => rfl) ih _
      | delete d => exact ih

namespace Operation

theorem normalize_of_isIdentity {op : Operation} (h : op.isIdentity) : op.normalize = empty :=
  normalize_eq_empty_iff.mpr (all_isIdentity_gather_pieces h)

/-- Undoing an operation and doing it again composes to one that changes nothing. -/
theorem exists_compose_inverse (op : Operation) :
    ∃ c, op.inverse.compose op = .ok c ∧ c.normalize = empty := by
  by_cases hop : op.isEmpty
  · rw [eq_empty_of_isEmpty hop]
    exact ⟨empty, rfl, rfl⟩
  · have hinv : ¬ op.inverse.isEmpty := by rw [isEmpty_inverse]; exact hop
    obtain ⟨c, hc, -, -⟩ := compose_lengths (lenAfter_inverse op)
    refine ⟨c, hc, normalize_of_isIdentity ?_⟩
    rw [isIdentity, components_of_compose hinv hop hc]
    show (composedComponents (Coedit.pieces (op.components.map Component.inverse)) op.pieces).all _
    rw [composedComponents_pieces_inverse]
    exact all_isIdentity_composedComponents_inverse op.pieces

/-- **The inverse is an inverse on both sides.** An operation turns one text into another exactly if
its inverse turns the other into the one. With no text at all, the two compose in either order, and
what they compose to has the empty operation as its normal form. -/
theorem inverse_cancels (op : Operation) :
    (∀ s t, op.apply s = .ok t ↔ op.inverse.apply t = .ok s) ∧
      (∃ c, op.compose op.inverse = .ok c ∧ c.normalize = empty) ∧
      ∃ c, op.inverse.compose op = .ok c ∧ c.normalize = empty := by
  refine ⟨fun s t => ⟨apply_inverse, fun h => ?_⟩, ?_, exists_compose_inverse op⟩
  · have hback := apply_inverse h
    rw [inverse_inverse] at hback
    exact hback
  · have hback := exists_compose_inverse op.inverse
    rw [inverse_inverse] at hback
    exact hback

end Operation

end Coedit
