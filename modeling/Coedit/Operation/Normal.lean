import Coedit.Operation.Making

/-!
# Normal form

`normalize` brings an operation into the form with as few and as small components as its effect
allows: empty components go, neighbours merge, and each replacement is trimmed to the characters
that change. An operation that changes nothing becomes the empty one. The lengths of any other
operation stay what they are, so normalizing cannot fail.
-/

namespace Coedit

/-- The runs of a component, with a replacement trimmed to the characters that change. -/
def Component.trimmed : Component → List Piece
  | retain n => [.retain n]
  | replace d i => Piece.changing d i

/-- The components merged, each replacement trimmed, and the result merged again. -/
def trimComponents (cs : List Component) : List Component :=
  gather ((gather (pieces cs)).flatMap Component.trimmed)

theorem Component.total_lenBefore_trimmed (c : Component) :
    total Piece.lenBefore c.trimmed = c.lenBefore := by
  cases c with
  | retain n => simp [trimmed, Piece.lenBefore, lenBefore]
  | replace d i =>
    have h := Text.sharedStart_le_left d i
    have h' := Text.sharedEnd_le_left (d.drop (Text.sharedStart d i)) (i.drop (Text.sharedStart d i))
    simp only [List.length_drop] at h'
    simp [trimmed, Piece.changing, Piece.lenBefore, lenBefore]
    omega

theorem Component.total_lenAfter_trimmed (c : Component) :
    total Piece.lenAfter c.trimmed = c.lenAfter := by
  cases c with
  | retain n => simp [trimmed, Piece.lenAfter, lenAfter]
  | replace d i =>
    have h := Text.sharedStart_le_right d i
    have h' := Text.sharedEnd_le_right (d.drop (Text.sharedStart d i)) (i.drop (Text.sharedStart d i))
    simp only [List.length_drop] at h'
    simp [trimmed, Piece.changing, Piece.lenAfter, lenAfter]
    omega

theorem total_lenBefore_trimmed (cs : List Component) :
    total Piece.lenBefore (cs.flatMap Component.trimmed) = inputLength cs := by
  induction cs with
  | nil => rfl
  | cons c cs ih =>
    rw [List.flatMap_cons, total_append, inputLength_cons,
      c.total_lenBefore_trimmed, ih]

theorem total_lenAfter_trimmed (cs : List Component) :
    total Piece.lenAfter (cs.flatMap Component.trimmed) = outputLength cs := by
  induction cs with
  | nil => rfl
  | cons c cs ih =>
    rw [List.flatMap_cons, total_append, outputLength_cons,
      c.total_lenAfter_trimmed, ih]

theorem inputLength_trimComponents (cs : List Component) :
    inputLength (trimComponents cs) = inputLength cs := by
  rw [trimComponents, inputLength_gather, total_lenBefore_trimmed, inputLength_gather,
    total_lenBefore_pieces]

theorem outputLength_trimComponents (cs : List Component) :
    outputLength (trimComponents cs) = outputLength cs := by
  rw [trimComponents, outputLength_gather, total_lenAfter_trimmed, outputLength_gather,
    total_lenAfter_pieces]

namespace Operation

/-- The normal form of the operation. -/
def normalize (op : Operation) : Operation :=
  if (trimComponents op.components).all Component.isRetain then empty
  else
    { components := trimComponents op.components
      inputLength_lt := by rw [inputLength_trimComponents]; exact op.inputLength_lt
      outputLength_lt := by rw [outputLength_trimComponents]; exact op.outputLength_lt }

end Operation

end Coedit
