import Coedit.Captured
import Coedit.Caret
import Coedit.Document
import Coedit.EditId
import Coedit.Fault
import Coedit.History.Basic
import Coedit.History.Bridge
import Coedit.History.Retention
import Coedit.History.Trim
import Coedit.Interval.Basic
import Coedit.Interval.Projection
import Coedit.Json.Basic
import Coedit.Json.Codec
import Coedit.Operation.Alignment
import Coedit.Operation.Apply
import Coedit.Operation.Basic
import Coedit.Operation.Component
import Coedit.Operation.Compose
import Coedit.Operation.Making
import Coedit.Operation.Normal
import Coedit.Operation.Offset
import Coedit.Operation.Piece
import Coedit.Operation.Transform
import Coedit.Proofs.Document.Capture
import Coedit.Proofs.Document.Exchange
import Coedit.Proofs.Document.Following
import Coedit.Proofs.Document.NewText
import Coedit.Proofs.Document.Positions
import Coedit.Proofs.Document.Recording
import Coedit.Proofs.History.Bridge
import Coedit.Proofs.History.Chronicle
import Coedit.Proofs.History.Comparison
import Coedit.Proofs.History.Fork
import Coedit.Proofs.History.Invariant
import Coedit.Proofs.History.Reached
import Coedit.Proofs.History.Refinement
import Coedit.Proofs.History.Refusal
import Coedit.Proofs.History.Retained
import Coedit.Proofs.History.Return
import Coedit.Proofs.History.Trimming
import Coedit.Proofs.History.Window
import Coedit.Proofs.Interval.Assembly
import Coedit.Proofs.Interval.Order
import Coedit.Proofs.Interval.Projection
import Coedit.Proofs.Interval.Survival
import Coedit.Proofs.Interval.Within
import Coedit.Proofs.Operation.Cancellation
import Coedit.Proofs.Operation.Composition
import Coedit.Proofs.Operation.Detour
import Coedit.Proofs.Operation.Effect
import Coedit.Proofs.Operation.Gathering
import Coedit.Proofs.Operation.Identity
import Coedit.Proofs.Operation.Inversion
import Coedit.Proofs.Operation.Lengths
import Coedit.Proofs.Operation.Merge
import Coedit.Proofs.Operation.NormalForm
import Coedit.Proofs.Operation.Normalization
import Coedit.Proofs.Operation.OffsetArithmetic
import Coedit.Proofs.Operation.OffsetOrder
import Coedit.Proofs.Operation.Offsets
import Coedit.Proofs.Operation.Places
import Coedit.Proofs.Operation.Shape
import Coedit.Proofs.Operation.Splicing
import Coedit.Proofs.Operation.Strokes
import Coedit.Proofs.Operation.Totality
import Coedit.Proofs.Outcome
import Coedit.Proofs.Tape.Placement
import Coedit.Proofs.Tape.Tracking
import Coedit.Proofs.TrieVec.Digits
import Coedit.Proofs.TrieVec.Family
import Coedit.Side
import Coedit.Span
import Coedit.Tape
import Coedit.Text
import Coedit.Text.Quoted
import Coedit.Text.Unprinted
import Coedit.Trie.Basic
import Coedit.Trie.Lemmas
import Coedit.TrieVec.Basic
import Coedit.TrieVec.Cursor
import Coedit.TrieVec.Search
import Coedit.Word
