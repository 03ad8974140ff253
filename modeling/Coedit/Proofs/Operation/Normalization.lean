import Coedit.Operation.Normal
import Coedit.Proofs.Operation.Effect

/-!
# Normalizing keeps what an operation does

Normalizing merges components, trims each replacement to the characters that change and drops the
components of an operation that changes nothing. Trimming is the step with an argument to it. What
two texts share at the front is followed by the same characters in both, and of what remains, the
same holds at the back:

> `rewrites_changing`: the runs of `Piece.changing old new` rewrite `old` into `new`.

An operation left with nothing but kept runs can be dropped, because such runs change no text
(`Rewrites.eq_of_all_isRetain`). Together: `Operation.normalize_apply`.
-/

namespace Coedit

namespace Text

theorem take_sharedStart (s t : Text) :
    s.take (sharedStart s t) = t.take (sharedStart s t) := by
  fun_induction sharedStart s t with
  | case1 a as bs ih =>
    rw [List.take_succ_cons, List.take_succ_cons, ih]
  | case2 a as b bs hab => rfl
  | case3 s t _ => rfl

/-- The last `sharedEnd s t` characters of both texts are the same. -/
theorem drop_sharedEnd (s t : Text) :
    s.drop (s.length - sharedEnd s t) = t.drop (t.length - sharedEnd s t) := by
  have h := congrArg List.reverse (take_sharedStart s.reverse t.reverse)
  rw [List.reverse_take, List.reverse_take, List.reverse_reverse, List.reverse_reverse,
    List.length_reverse, List.length_reverse] at h
  exact h

end Text

/-! ## Runs side by side -/

theorem Rewrites.append {ps qs : List Piece} {s s' t t' : Text} (hp : Rewrites ps s t)
    (hq : Rewrites qs s' t') : Rewrites (ps ++ qs) (s ++ s') (t ++ t') := by
  induction hp with
  | nil => exact hq
  | cons hturn _ ih =>
    rw [List.append_assoc, List.append_assoc]
    exact .cons hturn ih

/-- The runs of a change from one text to another make that change. -/
theorem rewrites_changing (old new : Text) : Rewrites (Piece.changing old new) old new := by
  have hstart := Text.take_sharedStart old new
  have hstop := Text.drop_sharedEnd (old.drop (Text.sharedStart old new))
    (new.drop (Text.sharedStart old new))
  have hold := Text.sharedStart_le_left old new
  have hend := Text.sharedEnd_le_left (old.drop (Text.sharedStart old new))
    (new.drop (Text.sharedStart old new))
  simp only [Piece.changing]
  generalize Text.sharedStart old new = n at *
  generalize Text.sharedEnd (old.drop n) (new.drop n) = m at *
  refine rewrites_retain.mpr ⟨old.take n, old.drop n, new.drop n, ?_, ?_, ?_, ?_⟩
  · rw [List.length_take, Nat.min_eq_left hold]
  · exact (List.take_append_drop n old).symm
  · rw [hstart]
    exact (List.take_append_drop n new).symm
  refine rewrites_delete.mpr ⟨(old.drop n).drop ((old.drop n).length - m), ?_, ?_⟩
  · exact (List.take_append_drop _ _).symm
  refine rewrites_insert.mpr ⟨(new.drop n).drop ((new.drop n).length - m), ?_, ?_⟩
  · exact (List.take_append_drop _ _).symm
  -- what is left of both texts is the shared end, which is kept
  refine rewrites_retain.mpr ⟨(old.drop n).drop ((old.drop n).length - m), [], [], ?_, ?_, ?_, .nil⟩
  · rw [List.length_drop]
    omega
  · rw [List.append_nil]
  · rw [List.append_nil, hstop]

/-! ## Trimmed components -/

/-- Trimming every replacement keeps what the components do. -/
theorem Rewrites.trimmed {cs : List Component} {s t : Text} (h : Rewrites (pieces cs) s t) :
    Rewrites (cs.flatMap Component.trimmed) s t := by
  induction cs generalizing s t with
  | nil => exact h
  | cons c cs ih =>
    rw [List.flatMap_cons]
    cases c with
    | retain n =>
      obtain ⟨u, s', t', hu, rfl, rfl, hcs⟩ :=
        rewrites_retain.mp ((rewrites_pieces_retain n cs).mp h)
      exact rewrites_retain.mpr ⟨u, s', t', hu, rfl, rfl, ih hcs⟩
    | replace d i =>
      obtain ⟨s', t', rfl, rfl, hcs⟩ := (rewrites_pieces_replace d i cs).mp h
      exact (rewrites_changing d i).append (ih hcs)

theorem Rewrites.trimComponents {cs : List Component} {s t : Text} (h : Rewrites (pieces cs) s t) :
    Rewrites (pieces (trimComponents cs)) s t :=
  (rewrites_gather _).mpr (((rewrites_gather _).mpr h).trimmed)

/-- Components that only keep characters change no text. -/
theorem Rewrites.eq_of_all_isRetain {cs : List Component} (hcs : cs.all Component.isRetain)
    {s t : Text} (h : Rewrites (pieces cs) s t) : s = t := by
  induction cs generalizing s t with
  | nil =>
    obtain ⟨rfl, rfl⟩ := rewrites_nil.mp h
    rfl
  | cons c cs ih =>
    rw [List.all_cons, Bool.and_eq_true] at hcs
    cases c with
    | retain n =>
      obtain ⟨u, s', t', _, rfl, rfl, hrest⟩ :=
        rewrites_retain.mp ((rewrites_pieces_retain n cs).mp h)
      rw [ih hcs.2 hrest]
    | replace d i => exact absurd hcs.1 Bool.false_ne_true

namespace Operation

/-- **A normalized operation does the same.** It makes of every text what the operation makes of
it. -/
theorem normalize_apply {op : Operation} {s t : Text} (h : op.apply s = .ok t) :
    op.normalize.apply s = .ok t := by
  unfold normalize
  by_cases hop : op.isEmpty
  · have hnil : op.components = [] := List.isEmpty_iff.mp hop
    rw [if_pos (by rw [hnil]; rfl), apply_empty, ← h, apply_of_isEmpty hop]
  · have htrim := ((apply_eq_ok_iff hop).mp h).trimComponents
    split
    · next hall =>
      rw [apply_empty, htrim.eq_of_all_isRetain hall]
    · exact apply_of_rewrites htrim

end Operation

end Coedit
