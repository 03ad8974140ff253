import Coedit.Interval.Basic

/-!
# From a map of offsets to an operation

Sometimes it is only known where each offset of the old text lands in the new one. `operationTo`
builds an operation that takes the ends of a set of intervals there, as far as an operation can:
it inserts and deletes filler characters at the *anchors* of the set. These are the ends of the
intervals, together with the offset just before a start if that lies beyond the previous interval's
end.

The operation is built from left to right. At each anchor the shift still missing is made up,
either by inserting characters or by deleting characters just before it, of which there are only as
many as lie between it and the anchor before.
-/

namespace Coedit

namespace IntervalSet

variable {κ ν : Type}

/-- The character that stands for text of which only the length is known. -/
def filler : Char := '\ufffc'

/-- A text of `n` filler characters; `Word.signedBound` characters do not fit into one. -/
def fillers (n : Nat) : Except Fault Text :=
  if n < Word.signedBound then .ok (List.replicate n filler) else .error .textTooLong

/-- The offsets at which intervals can be observed, in the order of the intervals. `last` is the
end of the interval before them. -/
def observed : Option Nat → List (Interval κ ν) → List Nat
  | _, [] => []
  | last, i :: is =>
    let before := if 0 < i.start ∧ last.all (· < i.start - 1) then [i.start - 1] else []
    before ++ i.start :: i.stop :: observed (some i.stop) is

/-- Adds an offset to ascending offsets, unless it is among them. -/
def insertPoint (p : Nat) : List Nat → List Nat
  | [] => [p]
  | q :: qs => if p < q then p :: q :: qs else if p = q then q :: qs else q :: insertPoint p qs

/-- The offsets at which the set can be observed, ascending and without repetition. -/
def anchors (s : IntervalSet κ ν) : List Nat :=
  (observed none s.entries).foldr insertPoint []

/-- A component that keeps `n` characters, unless there are none to keep. -/
def keeping (n : Nat) : List Component := if n = 0 then [] else [.retain n]

/-- The components that take the given anchors to their targets. The shift so far is `shift`,
the components so far end at `emitted`, and `previous` is the anchor before. -/
def reach (target : Nat → Except Fault Nat) :
    (shift : Int) → (emitted previous : Nat) → List Nat → Except Fault (List Component)
  | _, _, _, [] => .ok []
  | shift, emitted, previous, point :: points => do
    let goal ← target point
    let wanted ← Word.signedSub (Word.toSigned goal) (Word.toSigned point)
    let missing ← Word.signedSub wanted shift
    let deleted := min (-missing).toNat (point - previous)
    if 0 < missing then do
      let run ← fillers missing.toNat
      let rest ← reach target (shift + missing) point point points
      .ok (keeping (point - emitted) ++ .replace [] run :: rest)
    else if 0 < deleted then do
      let run ← fillers deleted
      let rest ← reach target (shift - deleted) point point points
      .ok (keeping (point - deleted - emitted) ++ .replace run [] :: rest)
    else
      reach target shift emitted point points

/-- The operation that takes the anchors of the set to their targets. -/
def operationTo (s : IntervalSet κ ν) (target : Nat → Except Fault Nat) :
    Except Fault Operation := do
  let components ← reach target 0 0 0 (0 :: s.anchors)
  Operation.ofComponents components

/-- The set with its ends taken to their targets. -/
def relocate (s : IntervalSet κ ν) (target : Nat → Except Fault Nat) :
    Except Fault (IntervalSet κ ν) := do
  let op ← s.operationTo target
  s.edit op

end IntervalSet

end Coedit
