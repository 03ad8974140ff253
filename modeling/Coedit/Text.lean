/-!
# Text

A text is a list of characters (Unicode scalar values). Every offset and every length in this
library counts characters, so a text's length is the length of the list.

The one question asked of two texts on their own is how far they agree: `sharedStart` counts the
characters they have in common at the front, `sharedEnd` those at the back.
-/

namespace Coedit

/-- A text is a list of characters. -/
abbrev Text := List Char

namespace Text

/-- The number of leading characters on which two texts agree. -/
def sharedStart : Text → Text → Nat
  | a :: as, b :: bs => if a = b then sharedStart as bs + 1 else 0
  | _, _ => 0

/-- The number of trailing characters on which two texts agree. -/
def sharedEnd (s t : Text) : Nat := sharedStart s.reverse t.reverse

theorem sharedStart_le_left (s t : Text) : sharedStart s t ≤ s.length := by
  fun_induction sharedStart s t <;> simp_all

theorem sharedStart_le_right (s t : Text) : sharedStart s t ≤ t.length := by
  fun_induction sharedStart s t <;> simp_all

theorem sharedEnd_le_left (s t : Text) : sharedEnd s t ≤ s.length := by
  simpa [sharedEnd] using sharedStart_le_left s.reverse t.reverse

theorem sharedEnd_le_right (s t : Text) : sharedEnd s t ≤ t.length := by
  simpa [sharedEnd] using sharedStart_le_right s.reverse t.reverse

end Text

end Coedit
