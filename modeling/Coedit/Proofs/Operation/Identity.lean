import Coedit.Proofs.Operation.Cancellation

/-!
# Operations that change nothing, component by component

`Operation.isIdentity` looks at each component on its own: does it produce what it consumes? An
operation of which this holds changes no text. The converse needs more, since a replacement can put
back what the one before it has taken (`Operation.isIdentity_misses`). It holds as soon as something
is kept between any two replacements, and merging brings every operation into that form:

> `Operation.isIdentity_unchanging`: an operation that is an identity changes nothing. It changes
> nothing exactly if its merged components are identities, and exactly if its normal form is empty.
> For components that are `Separated` it is enough to look at them as they are, and all operations
> that are put together from runs have such components.

Empty components stand between others without separating them, so they are left out of account.
-/

namespace Coedit

/-- Between any two replacements something is kept. Components without characters do not count. -/
def Separated (cs : List Component) : Prop :=
  (cs.filter fun c => !c.pieces.isEmpty).IsChain fun c c' => c.isRetain ∨ c'.isRetain

namespace Component

theorem pieces_eq_nil_iff {c : Component} : c.pieces = [] ↔ ¬ c.HasCharacters := by
  cases c with
  | retain n => simp [pieces, Piece.size, HasCharacters]
  | replace d i => simp [pieces, Piece.size, HasCharacters]

theorem isIdentity_of_pieces_eq_nil {c : Component} (h : c.pieces = []) : c.isIdentity := by
  cases c with
  | retain n => rfl
  | replace d i =>
    rw [pieces_eq_nil_iff] at h
    simp only [HasCharacters, not_or, not_not] at h
    rw [h.1, h.2]
    rfl

end Component

/-- Components without characters have no part in the runs. -/
theorem pieces_filter (cs : List Component) :
    pieces (cs.filter fun c => !c.pieces.isEmpty) = pieces cs := by
  induction cs with
  | nil => rfl
  | cons c cs ih =>
    rw [pieces, pieces] at ih
    by_cases hc : c.pieces = []
    · rw [List.filter_cons_of_neg (by simp [hc]), pieces, pieces, List.flatMap_cons, hc, ih]
      rfl
    · rw [List.filter_cons_of_pos (by simp [hc]), pieces, pieces, List.flatMap_cons,
        List.flatMap_cons, ih]

theorem all_isIdentity_filter (cs : List Component) :
    (cs.filter fun c => !c.pieces.isEmpty).all Component.isIdentity =
      cs.all Component.isIdentity := by
  rw [List.all_filter]
  congr 1
  funext c
  by_cases hc : c.pieces = []
  · simp [hc, c.isIdentity_of_pieces_eq_nil hc]
  · simp [hc]

/-- Nothing but kept runs is merged into a kept run in front. -/
theorem all_isIdentity_onto_retain {cs : List Component} {n : Nat} :
    ((Piece.retain n).onto cs).all Component.isIdentity ↔ cs.all Component.isIdentity := by
  by_cases hn : n = 0
  · rw [Piece.onto_of_size_eq_zero (p := .retain n) hn]
  · cases cs with
    | nil => simp [Piece.onto, Piece.size, hn, Component.isIdentity]
    | cons c cs => cases c <;> simp [Piece.onto, Piece.size, hn, Component.isIdentity]

/-- **Where something is kept between replacements, merging does not touch them.** -/
theorem all_isIdentity_gather_pieces_iff {cs : List Component}
    (hchars : ∀ c ∈ cs, c.HasCharacters)
    (hchain : cs.IsChain fun c c' => c.isRetain ∨ c'.isRetain) :
    (gather (pieces cs)).all Component.isIdentity ↔ cs.all Component.isIdentity := by
  induction cs with
  | nil => exact Iff.rfl
  | cons c cs ih =>
    obtain ⟨hnext, hrest⟩ := List.isChain_cons.mp hchain
    have ih := ih (fun c' hc' => hchars c' (List.mem_cons_of_mem _ hc')) hrest
    rw [pieces, List.flatMap_cons, gather_append, ← pieces, List.all_cons]
    cases c with
    | retain n =>
      rw [Component.foldr_onto_pieces_retain, all_isIdentity_onto_retain, ih]
      rfl
    | replace d i =>
      -- what comes next is kept, and a merged kept run is still a kept run
      have hkept : ∀ c ∈ (gather (pieces cs)).head?,
          (Component.replace d i).isRetain ≠ c.isRetain := by
        cases cs with
        | nil => simp [pieces]
        | cons c' cs =>
          cases c' with
          | replace d' i' => simp [Component.isRetain] at hnext
          | retain m =>
            have hm : m ≠ 0 := Nat.ne_of_gt (hchars (.retain m) (by simp))
            rw [pieces, List.flatMap_cons, gather_append, ← pieces,
              Component.foldr_onto_pieces_retain]
            intro c hc
            rw [Piece.isRetain_of_mem_head?_onto (fun hzero => absurd hzero hm) c hc]
            exact Bool.false_ne_true
      rw [Component.foldr_onto_pieces_eq_cons (hchars _ (List.mem_cons_self ..)) hkept,
        List.all_cons, Bool.and_eq_true, Bool.and_eq_true, ih]

theorem Separated.all_isIdentity_gather_pieces_iff {cs : List Component} (h : Separated cs) :
    (gather (pieces cs)).all Component.isIdentity ↔ cs.all Component.isIdentity := by
  rw [← pieces_filter, ← all_isIdentity_filter cs]
  refine Coedit.all_isIdentity_gather_pieces_iff ?_ h
  intro c hc
  have hne : c.pieces ≠ [] := by simpa using (List.mem_filter.mp hc).2
  exact not_not.mp fun hempty => hne (Component.pieces_eq_nil_iff.mpr hempty)

/-- Merged components take turns, so they are separated. -/
theorem Merged.separated {cs : List Component} (h : Merged cs) : Separated cs := by
  have hall : (cs.filter fun c => !c.pieces.isEmpty) = cs := by
    refine List.filter_eq_self.mpr fun c hc => ?_
    have hne : c.pieces ≠ [] := fun hnil =>
      Component.pieces_eq_nil_iff.mp hnil (h.hasCharacters c hc)
    simpa using hne
  unfold Separated
  rw [hall]
  refine h.alternates.imp fun c c' hne => ?_
  cases hc : c.isRetain with
  | true => exact Or.inl rfl
  | false =>
    rw [hc] at hne
    exact Or.inr (eq_true_of_ne_false (Ne.symm hne))

namespace Operation

/-- Every text that the operation applies to stays as it is. -/
def Unchanging (op : Operation) : Prop := ∀ s t, op.apply s = .ok t → t = s

theorem unchanging_iff {op : Operation} :
    op.Unchanging ↔ (gather op.pieces).all Component.isIdentity := by
  constructor
  · intro h
    by_contra hall
    obtain ⟨s, t, hst, hne⟩ := exists_apply_ne hall
    exact hne (h s t hst)
  · intro h s t hop
    exact eq_of_normalize_eq_empty (normalize_eq_empty_iff.mpr h) hop

/-- **An operation whose components are identities changes nothing, and merged components tell.**
An operation changes nothing exactly if its merged components are identities, and exactly if its
normal form is empty. If its own components are identities, it changes nothing; and if something is
kept between any two replacements, the converse is true as well. That is so for every operation put
together from runs. -/
theorem isIdentity_unchanging (op : Operation) :
    (op.isIdentity → op.Unchanging) ∧
      (op.Unchanging ↔ (gather op.pieces).all Component.isIdentity) ∧
      (op.Unchanging ↔ op.normalize = empty) ∧
      (Separated op.components → (op.isIdentity ↔ op.Unchanging)) ∧
      ∀ ps, ofPieces ps = .ok op → Separated op.components := by
  refine ⟨?_, unchanging_iff, unchanging_iff.trans normalize_eq_empty_iff.symm, ?_, ?_⟩
  · intro h
    exact unchanging_iff.mpr (all_isIdentity_gather_pieces h)
  · intro h
    exact (h.all_isIdentity_gather_pieces_iff.symm).trans unchanging_iff.symm
  · intro ps hps
    rw [components_of_ofComponents hps]
    exact (merged_gather ps).separated

/-- A replacement of a text by itself, apart from the next one by an empty kept run and a full
one. -/
def standing : Operation :=
  ⟨[.replace ['a'] ['a'], .retain 0, .retain 1, .replace [] []], by decide, by decide⟩

/-- The components are neither merged nor trimmed, and still they tell. -/
theorem isIdentity_unchanging_standing :
    Separated standing.components ∧ standing.isIdentity ∧ standing.Unchanging ∧
      standing.normalize = empty := by
  obtain ⟨-, -, hnormal, hseparated, -⟩ := isIdentity_unchanging standing
  have hapart : Separated standing.components := by
    unfold Separated
    decide
  have hunchanging : standing.Unchanging := (hseparated hapart).mp rfl
  exact ⟨hapart, rfl, hunchanging, hnormal.mp hunchanging⟩

/-- Deletes a character and puts it back. -/
def putBack : Operation := ⟨[.replace ['a'] [], .replace [] ['a']], by decide, by decide⟩

/-- Neither of the components is an identity, but together they change nothing. -/
theorem isIdentity_misses :
    putBack.apply ['a'] = .ok ['a'] ∧ putBack.Unchanging ∧ putBack.normalize = empty ∧
      putBack.isIdentity = false := by
  have hmerged : (gather putBack.pieces).all Component.isIdentity := by decide
  exact ⟨rfl, unchanging_iff.mpr hmerged, normalize_eq_empty_iff.mpr hmerged, rfl⟩

end Operation

end Coedit
