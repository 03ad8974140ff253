import Coedit.Caret
import Coedit.History.Retention
import Coedit.Json.Basic

/-!
# Reading and writing values as JSON

For each value type a writer `toJson` and a reader `ofJson?`, which gives `none` for a value of any
other shape.

* A record is written as an object. It is read from an object, where other fields are ignored, or
  from an array of exactly its fields in order.
* A side is written as its name. It is read from its name, or from an object whose only field is
  the name, with the value null.
* A component is an object with one field, which names its kind.
* An operation is an array of components. The shape can be right and the lengths still too large,
  so reading one gives the outcome of forming it.
-/

namespace Coedit

namespace Side

def toJson : Side → Json
  | left => .string "Left"
  | right => .string "Right"

/-- The side of this name. -/
def ofName? : String → Option Side
  | "Left" => some left
  | "Right" => some right
  | _ => none

def ofJson? : Json → Option Side
  | .string name => ofName? name
  | .object [(name, .null)] => ofName? name
  | _ => none

end Side

namespace Component

def toJson : Component → Json
  | retain n => .object [("Retain", .nat n)]
  | replace d i => .object [("Replace", .object [("delete", .text d), ("insert", .text i)])]

def ofJson? : Json → Option Component
  | .object [("Retain", n)] => do
    let n ← n.word?
    some (retain n)
  | .object [("Replace", .object fields)] => do
    let delete ← (Json.object fields).field? "delete"
    let insert ← (Json.object fields).field? "insert"
    let delete ← delete.text?
    let insert ← insert.text?
    some (replace delete insert)
  | _ => none

end Component

namespace Operation

def toJson (op : Operation) : Json := .array (op.components.map Component.toJson)

def ofJson? : Json → Option (Except Fault Operation)
  | .array items => do
    let components ← items.mapM Component.ofJson?
    some (ofComponents components)
  | _ => none

end Operation

namespace Json

/-- The two fields of a record: those of an object, or an array of exactly two. -/
def pair? (first second : String) : Json → Option (Option Json × Option Json)
  | .object fields => some (fields.lookup first, fields.lookup second)
  | .array [a, b] => some (some a, some b)
  | _ => none

/-- Two required words of a record. -/
def words? (first second : String) (json : Json) : Option (Nat × Nat) := do
  let (a, b) ← json.pair? first second
  let a ← a.bind word?
  let b ← b.bind word?
  some (a, b)

end Json

namespace Span

def toJson (s : Span) : Json := .object [("start", .nat s.start), ("end", .nat s.stop)]

def ofJson? (json : Json) : Option Span := do
  let (start, stop) ← json.words? "start" "end"
  some ⟨start, stop⟩

end Span

namespace Caret

def toJson (c : Caret) : Json :=
  .object [("offset", .nat c.offset), ("selection", (c.selection.map Span.toJson).getD .null)]

/-- A selection that is missing or null is no selection. -/
def ofJson? (json : Json) : Option Caret := do
  let (offset, selection) ← json.pair? "offset" "selection"
  let offset ← offset.bind Json.word?
  match selection with
  | none | some .null => some ⟨offset, none⟩
  | some selection => do
    let span ← Span.ofJson? selection
    some ⟨offset, some span⟩

end Caret

namespace Retention

def toJson (r : Retention) : Json :=
  .object [("max_entry_count", .nat r.maxEntries), ("max_op_size", .nat r.maxWeight)]

def ofJson? (json : Json) : Option Retention := do
  let (maxEntries, maxWeight) ← json.words? "max_entry_count" "max_op_size"
  some ⟨maxEntries, maxWeight⟩

end Retention

end Coedit
