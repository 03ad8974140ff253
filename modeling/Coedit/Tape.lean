import Coedit.Side
import Coedit.Word

/-!
# Tapes

The plainest model of a text with positions in it: a tape of characters with markers between them.
A replacement changes the tape itself, and where a marker is afterwards shows where its position has
gone. No offset is ever computed from another one.

Markers in the replaced stretch, and those in the gap where it starts, end up on their own side of
the inserted text. The tape keeps the text after each replacement.
-/

namespace Coedit

/-- A place on a tape. -/
inductive Slot where
  | char (c : Char)
  | marker (id : Nat) (side : Side)
  deriving DecidableEq, Repr

namespace Slot

def isMarker : Slot → Bool
  | char _ => false
  | marker _ _ => true

/-- Is the slot a marker that keeps to this side? -/
def keepsTo (side : Side) : Slot → Bool
  | char _ => false
  | marker _ s => s = side

/-- The text on a list of slots. -/
def text : List Slot → Text
  | [] => []
  | char c :: slots => c :: text slots
  | marker _ _ :: slots => text slots

/-- Splits slots at the start of the gap before the character at `offset`, so that the markers in
the gap come after the split; `none` if the slots hold fewer characters. -/
def splitAt : Nat → List Slot → Option (List Slot × List Slot)
  | 0, slots => some ([], slots)
  | _ + 1, [] => none
  | n + 1, char c :: slots => (splitAt n slots).map fun s => (char c :: s.1, s.2)
  | n + 1, marker id side :: slots =>
    (splitAt (n + 1) slots).map fun s => (marker id side :: s.1, s.2)

/-- Splits slots right after the `n`-th character. -/
def splitAfter : Nat → List Slot → List Slot × List Slot
  | 0, slots => ([], slots)
  | _ + 1, [] => ([], [])
  | n + 1, char c :: slots => (char c :: (splitAfter n slots).1, (splitAfter n slots).2)
  | n + 1, marker id side :: slots =>
    (marker id side :: (splitAfter (n + 1) slots).1, (splitAfter (n + 1) slots).2)

/-- Splits slots into those that a replacement of `count` characters sweeps up and the rest: up to
the last replaced character, or all markers in the gap if no character is replaced. -/
def sweep (count : Nat) (slots : List Slot) : List Slot × List Slot :=
  if count = 0 then (slots.takeWhile isMarker, slots.dropWhile isMarker)
  else splitAfter count slots

/-- The number of characters before the marker with an id. -/
def markerOffset (id : Nat) : List Slot → Option Nat
  | [] => none
  | char _ :: slots => (markerOffset id slots).map (· + 1)
  | marker m _ :: slots => if m = id then some 0 else markerOffset id slots

end Slot

/-- A text with markers, and the texts it has had. -/
structure Tape where
  slots : List Slot
  /-- The number of marker ids given out. -/
  markers : Nat
  /-- The texts after each step, oldest first. -/
  versions : List Text
  deriving DecidableEq, Repr

namespace Tape

/-- The empty tape, whose first version is the empty text. -/
def empty : Tape := ⟨[], 0, [[]]⟩

/-- The empty tape without any version. -/
def blank : Tape := ⟨[], 0, []⟩

def text (t : Tape) : Text := Slot.text t.slots

def length (t : Tape) : Nat := t.text.length

def isEmpty (t : Tape) : Bool := t.length == 0

/-- The number of the newest version. -/
def version (t : Tape) : Except Fault Nat := Word.sub t.versions.length 1

/-- The text of a version. -/
def versionText (t : Tape) (version : Nat) : Except Fault Text :=
  match t.versions[version]? with
  | some text => .ok text
  | none => .error (.noSuchVersion t.versions.length version)

/-- The slots before and from the gap at an offset. -/
def gap (t : Tape) (offset : Nat) : Except Fault (List Slot × List Slot) :=
  match Slot.splitAt offset t.slots with
  | some split => .ok split
  | none => .error (.markerPastEnd t.length offset)

/-- Puts a new marker at the start of the gap at an offset, and gives its id. An id is used up even
if there is no such offset. -/
def mark (t : Tape) (offset : Nat) (side : Side) : Tape × Except Fault Nat :=
  let numbered := { t with markers := t.markers + 1 }
  match t.gap offset with
  | .ok (before, after) =>
    ({ numbered with slots := before ++ .marker t.markers side :: after }, .ok t.markers)
  | .error f => (numbered, .error f)

/-- The offset of a marker. -/
def marker (t : Tape) (id : Nat) : Option Nat := Slot.markerOffset id t.slots

/-- Replaces `count` characters at an offset by a text. -/
def replace (t : Tape) (offset count : Nat) (text : Text) : Except Fault Tape := do
  let stop ← Word.add offset count
  if t.length < stop then .error .tapeOverrun
  else do
    let (before, after) ← t.gap offset
    let (swept, rest) := Slot.sweep count after
    let slots := before ++ swept.filter (Slot.keepsTo .left) ++ text.map Slot.char ++
      swept.filter (Slot.keepsTo .right) ++ rest
    .ok { t with slots := slots, versions := t.versions ++ [Slot.text slots] }

/-- The tape with a text as its second version. -/
def ofText (text : Text) : Except Fault Tape := empty.replace 0 0 text

end Tape

end Coedit
