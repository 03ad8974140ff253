import Coedit.Operation.Offset

/-!
# Sets of intervals

An interval is a stretch of a text that carries a key and a value. A set keeps its intervals in
order of start and then end; intervals with the same ends stay in the order in which they came.
Reading intervals in one by one and inserting them one by one is therefore the same thing
(`IntervalSet.ofList`).

Both ends of an interval follow an operation on the right side of inserted text, after which the
set is put in order again.
-/

namespace Coedit

/-- A stretch of a text with a key and a value. -/
structure Interval (κ ν : Type) where
  key : κ
  start : Nat
  stop : Nat
  value : ν
  deriving DecidableEq, Repr

namespace Interval

variable {κ ν : Type}

/-- May `a` stand before `b`? The order of starts, then of ends. -/
def le (a b : Interval κ ν) : Bool :=
  a.start < b.start || (a.start == b.start && a.stop ≤ b.stop)

/-- Puts an interval behind all that may stand before it. -/
def insertInto (i : Interval κ ν) : List (Interval κ ν) → List (Interval κ ν)
  | [] => [i]
  | j :: js => if j.le i then j :: insertInto i js else i :: j :: js

/-- The interval after an operation. -/
def move (i : Interval κ ν) (op : Operation) : Except Fault (Interval κ ν) := do
  let start ← op.mapOffset i.start .right
  let stop ← op.mapOffset i.stop .right
  .ok { i with start, stop }

end Interval

/-- Intervals in order of their ends. -/
structure IntervalSet (κ ν : Type) where
  entries : List (Interval κ ν)
  deriving DecidableEq, Repr

namespace IntervalSet

variable {κ ν : Type}

def empty : IntervalSet κ ν := ⟨[]⟩

/-- The intervals of a list, put in order. -/
def ofList (is : List (Interval κ ν)) : IntervalSet κ ν :=
  ⟨is.foldl (fun entries i => i.insertInto entries) []⟩

/-- The set with one more interval, whose ends have to be in order. -/
def insert (s : IntervalSet κ ν) (i : Interval κ ν) : Except Fault (IntervalSet κ ν) :=
  if i.start ≤ i.stop then .ok ⟨i.insertInto s.entries⟩
  else .error (.intervalReversed i.start i.stop)

def length (s : IntervalSet κ ν) : Nat := s.entries.length

def isEmpty (s : IntervalSet κ ν) : Bool := s.entries.isEmpty

/-- The set after an operation. -/
def edit (s : IntervalSet κ ν) (op : Operation) : Except Fault (IntervalSet κ ν) :=
  if op.isEmpty then .ok s
  else do
    let moved ← s.entries.mapM fun i => i.move op
    .ok (ofList moved)

end IntervalSet

end Coedit
