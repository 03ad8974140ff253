import Coedit.Operation.Piece
import Coedit.Side

/-!
# Aligning two lists of pieces

Two operations that meet at one text, the second after the first or both from the same start, are
compared run by run. Some runs of either side have no characters in the shared text: they are
*free* and pass alone. All others are cut so that they cover the same stretch of the shared text
and pass in pairs.

Alignment is a list of `Cell`s, in the order of the text. Where both sides have a free run at the
same place, the side given as `first` goes first. If the two sides cover the same number of
characters of the shared text, no run is left over; otherwise the rest of the longer side passes
as `strayLeft` or `strayRight` cells.
-/

namespace Coedit

/-- One step of an alignment. -/
inductive Cell where
  /-- A free run of the left side. -/
  | left (p : Piece)
  /-- A free run of the right side. -/
  | right (q : Piece)
  /-- Runs of both sides over the same stretch of the shared text. -/
  | both (p q : Piece)
  /-- A run of the left side past the end of the right side. -/
  | strayLeft (p : Piece)
  /-- A run of the right side past the end of the left side. -/
  | strayRight (q : Piece)
  deriving DecidableEq, Repr

namespace Piece

/-- Puts what is left of a run after its first `k` characters back in front of the others. -/
def resume (k : Nat) (p : Piece) (ps : List Piece) : List Piece :=
  if p.size ≤ k then ps else p.drop k :: ps

/-- The number of runs and of characters in them: it falls with every step of an alignment. -/
def weight (ps : List Piece) : Nat := total (fun p => p.size + 1) ps

@[simp] theorem weight_cons (p : Piece) (ps : List Piece) :
    weight (p :: ps) = p.size + 1 + weight ps := rfl

theorem weight_resume (k : Nat) (p : Piece) (ps : List Piece) :
    weight (p.resume k ps) ≤ weight (p :: ps) := by
  unfold resume
  split
  · rw [weight_cons]; omega
  · rw [weight_cons, weight_cons, size_drop]; omega

theorem weight_resume_lt {k : Nat} {p : Piece} (h : p.size ≤ k) (ps : List Piece) :
    weight (p.resume k ps) < weight (p :: ps) := by
  rw [resume, if_pos h, weight_cons]; omega

end Piece

/-- Aligns the runs of a left and a right side. `freeLeft` and `freeRight` tell which runs have no
characters in the shared text. -/
def align (freeLeft freeRight : Piece → Bool) (first : Side) : List Piece → List Piece → List Cell
  | [], [] => []
  | p :: ps, [] =>
    (if freeLeft p then .left p else .strayLeft p) :: align freeLeft freeRight first ps []
  | [], q :: qs =>
    (if freeRight q then .right q else .strayRight q) :: align freeLeft freeRight first [] qs
  | p :: ps, q :: qs =>
    if freeLeft p ∧ (first = .left ∨ ¬ freeRight q) then
      .left p :: align freeLeft freeRight first ps (q :: qs)
    else if freeRight q then
      .right q :: align freeLeft freeRight first (p :: ps) qs
    else
      .both (p.take q.size) (q.take p.size) ::
        align freeLeft freeRight first (p.resume q.size ps) (q.resume p.size qs)
termination_by ps qs => Piece.weight ps + Piece.weight qs
decreasing_by
  · rw [Piece.weight_cons]; omega
  · rw [Piece.weight_cons]; omega
  · rw [Piece.weight_cons p]; omega
  · rw [Piece.weight_cons q]; omega
  · rcases Nat.le_total p.size q.size with h | h
    · have hp := Piece.weight_resume_lt h ps
      have hq := Piece.weight_resume p.size q qs
      omega
    · have hp := Piece.weight_resume q.size p ps
      have hq := Piece.weight_resume_lt h qs
      omega

end Coedit
