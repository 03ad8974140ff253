import Coedit.Caret
import Coedit.Interval.Projection
import Coedit.Operation.Compose
import Coedit.Operation.Transform
import Mathlib.Data.List.Forall2

/-!
# Only lengths matter

The texts of a replacement are carried along by composing and transforming, cut, cancelled and
joined, but never looked at. So an operation of which only the lengths are known can be filled with
any characters, and this file says what may be relied on then:

> `Operation.only_lengths_matter`: two pairs of operations of the same shape compose and transform
> alike, with the same faults and with results of the same shape, and move offsets, spans, carets
> and intervals to the same places.

Two runs of the same loop are compared here, and the comparison is reduced to a single run. Let
every character be exchanged for another one, by any function. This commutes with each step: with
cutting a run (`Piece.reletter_take`), with merging it into its neighbour (`Piece.reletter_onto`),
and with the walk over two lists of runs (`align_reletter`), whose choices depend on kinds and
lengths. Hence it commutes with the whole (`Operation.compose_reletter`,
`Operation.transform_reletter`). Exchanging all characters for the filler leaves just the shape of
an operation, its `outline`, and operations of the same shape have the same outline.
-/

namespace Coedit

/-! ## Other letters -/

/-- The component with each character of its texts exchanged. -/
def Component.reletter (f : Char → Char) : Component → Component
  | retain n => retain n
  | replace d i => replace (d.map f) (i.map f)

/-- The run with each of its characters exchanged. -/
def Piece.reletter (f : Char → Char) : Piece → Piece
  | retain n => retain n
  | delete t => delete (t.map f)
  | insert t => insert (t.map f)

/-- The cell with each character of its runs exchanged. -/
def Cell.reletter (f : Char → Char) : Cell → Cell
  | left p => left (p.reletter f)
  | right q => right (q.reletter f)
  | both p q => both (p.reletter f) (q.reletter f)
  | strayLeft p => strayLeft (p.reletter f)
  | strayRight q => strayRight (q.reletter f)

section Reletter

variable (f : Char → Char)

namespace Component

@[simp] theorem lenBefore_reletter (c : Component) : (c.reletter f).lenBefore = c.lenBefore := by
  cases c <;> simp [reletter, lenBefore]

@[simp] theorem lenAfter_reletter (c : Component) : (c.reletter f).lenAfter = c.lenAfter := by
  cases c <;> simp [reletter, lenAfter]

end Component

namespace Piece

@[simp] theorem size_reletter (p : Piece) : (p.reletter f).size = p.size := by
  cases p <;> simp [reletter, size]

@[simp] theorem isDelete_reletter (p : Piece) : (p.reletter f).isDelete = p.isDelete := by
  cases p <;> rfl

@[simp] theorem isInsert_reletter (p : Piece) : (p.reletter f).isInsert = p.isInsert := by
  cases p <;> rfl

theorem reletter_take (k : Nat) (p : Piece) : (p.take k).reletter f = (p.reletter f).take k := by
  cases p <;> simp [reletter, take]

theorem reletter_drop (k : Nat) (p : Piece) : (p.drop k).reletter f = (p.reletter f).drop k := by
  cases p <;> simp [reletter, drop]

theorem map_reletter_resume (k : Nat) (p : Piece) (ps : List Piece) :
    (p.resume k ps).map (reletter f) = (p.reletter f).resume k (ps.map (reletter f)) := by
  unfold resume
  rw [size_reletter]
  split
  · rfl
  · rw [List.map_cons, reletter_drop]

/-- Whether a run merges into its neighbour, and how, depends on the kinds of the two. -/
theorem reletter_onto (p : Piece) (cs : List Component) :
    (p.reletter f).onto (cs.map (Component.reletter f)) =
      (p.onto cs).map (Component.reletter f) := by
  unfold onto
  rw [size_reletter]
  split
  · rfl
  · cases cs with
    | nil => cases p <;> rfl
    | cons c cs => cases p <;> cases c <;> simp [reletter, Component.reletter]

end Piece

theorem Component.pieces_reletter (c : Component) :
    (c.reletter f).pieces = c.pieces.map (Piece.reletter f) := by
  -- which runs are left out as empty is a matter of their sizes
  have hfilter : ∀ ps : List Piece, (ps.map (Piece.reletter f)).filter (fun p => p.size != 0) =
      (ps.filter fun p => p.size != 0).map (Piece.reletter f) := by
    intro ps
    rw [List.filter_map]
    simp only [Function.comp_def, Piece.size_reletter]
  cases c with
  | retain n => exact hfilter [.retain n]
  | replace d i => exact hfilter [.delete d, .insert i]

theorem pieces_reletter (cs : List Component) :
    pieces (cs.map (Component.reletter f)) = (pieces cs).map (Piece.reletter f) := by
  unfold pieces
  rw [List.flatMap_map, List.map_flatMap]
  exact List.flatMap_congr fun c _ => c.pieces_reletter f

theorem gather_reletter (ps : List Piece) :
    gather (ps.map (Piece.reletter f)) = (gather ps).map (Component.reletter f) := by
  induction ps with
  | nil => rfl
  | cons p ps ih => rw [List.map_cons, gather_cons, gather_cons, ih, p.reletter_onto f]

/-- **The walk does not read.** If being free does not depend on the characters of a run, the walk
over two lists of runs takes the same steps whatever the characters are. -/
theorem align_reletter {freeLeft freeRight : Piece → Bool}
    (hleft : ∀ p, freeLeft (p.reletter f) = freeLeft p)
    (hright : ∀ q, freeRight (q.reletter f) = freeRight q) (first : Side) (ps qs : List Piece) :
    align freeLeft freeRight first (ps.map (Piece.reletter f)) (qs.map (Piece.reletter f)) =
      (align freeLeft freeRight first ps qs).map (Cell.reletter f) := by
  fun_induction align freeLeft freeRight first ps qs with
  | case1 => rw [List.map_nil, align, List.map_nil]
  | case2 p ps ih =>
    rw [List.map_nil] at ih
    rw [List.map_cons, List.map_nil, align, List.map_cons, ih, hleft]
    split <;> rfl
  | case3 q qs ih =>
    rw [List.map_nil] at ih
    rw [List.map_cons, List.map_nil, align, List.map_cons, ih, hright]
    split <;> rfl
  | case4 p ps q qs hfree ih =>
    rw [List.map_cons] at ih
    rw [List.map_cons, List.map_cons, align, hleft, hright, if_pos hfree, ih]
    rfl
  | case5 p ps q qs hfree hq ih =>
    rw [List.map_cons] at ih
    rw [List.map_cons, List.map_cons, align, hleft, hright, if_neg hfree, if_pos hq, ih]
    rfl
  | case6 p ps q qs hfree hq ih =>
    rw [Piece.map_reletter_resume, Piece.map_reletter_resume] at ih
    rw [List.map_cons, List.map_cons, align, hleft, hright, if_neg hfree, if_neg hq,
      Piece.size_reletter, Piece.size_reletter, ih, List.map_cons, Cell.reletter,
      Piece.reletter_take, Piece.reletter_take]

namespace Cell

theorem composed_reletter (c : Cell) :
    (c.reletter f).composed = c.composed.map (Piece.reletter f) := by
  cases c with
  | both p q => cases p <;> cases q <;> rfl
  | _ => rfl

theorem transformed_reletter (c : Cell) :
    (c.reletter f).transformed = c.transformed.map (Piece.reletter f) := by
  cases c with
  | both p q => cases p <;> cases q <;> rfl
  | right q =>
    show [Piece.retain (q.reletter f).size] = [Piece.retain q.size]
    rw [q.size_reletter f]
  | _ => rfl

end Cell

theorem inputLength_reletter (cs : List Component) :
    inputLength (cs.map (Component.reletter f)) = inputLength cs := by
  induction cs with
  | nil => rfl
  | cons c cs ih =>
    rw [List.map_cons, inputLength_cons, inputLength_cons, ih, c.lenBefore_reletter]

theorem outputLength_reletter (cs : List Component) :
    outputLength (cs.map (Component.reletter f)) = outputLength cs := by
  induction cs with
  | nil => rfl
  | cons c cs ih =>
    rw [List.map_cons, outputLength_cons, outputLength_cons, ih, c.lenAfter_reletter]

theorem moveOffset_reletter (side : Side) (o : Nat) (cs : List Component) (before after : Nat) :
    moveOffset side o (cs.map (Component.reletter f)) before after =
      moveOffset side o cs before after := by
  induction cs generalizing before after with
  | nil => rfl
  | cons c cs ih =>
    cases c with
    | retain n => simp only [List.map_cons, Component.reletter, moveOffset, ih]
    | replace d i => simp only [List.map_cons, Component.reletter, moveOffset, List.length_map, ih]

namespace Operation

/-- The operation with each character of its texts exchanged. -/
def reletter (op : Operation) : Operation where
  components := op.components.map (Component.reletter f)
  inputLength_lt := by rw [inputLength_reletter]; exact op.inputLength_lt
  outputLength_lt := by rw [outputLength_reletter]; exact op.outputLength_lt

@[simp] theorem isEmpty_reletter (op : Operation) : (op.reletter f).isEmpty = op.isEmpty := by
  simp [isEmpty, reletter]

@[simp] theorem lenBefore_reletter (op : Operation) : (op.reletter f).lenBefore = op.lenBefore :=
  inputLength_reletter f op.components

@[simp] theorem lenAfter_reletter (op : Operation) : (op.reletter f).lenAfter = op.lenAfter :=
  outputLength_reletter f op.components

@[simp] theorem mapOffset_reletter (op : Operation) (o : Nat) (side : Side) :
    (op.reletter f).mapOffset o side = op.mapOffset o side :=
  moveOffset_reletter f side o op.components 0 0

theorem pieces_reletter (op : Operation) :
    (op.reletter f).pieces = op.pieces.map (Piece.reletter f) :=
  Coedit.pieces_reletter f op.components

theorem ofPieces_reletter (ps : List Piece) :
    ofPieces (ps.map (Piece.reletter f)) = (ofPieces ps).map (reletter f) := by
  unfold ofPieces ofComponents
  simp only [gather_reletter, inputLength_reletter, outputLength_reletter]
  split <;> rfl

/-- Composing operations with other letters gives the composition with other letters. -/
theorem compose_reletter (a b : Operation) :
    (a.reletter f).compose (b.reletter f) = (a.compose b).map (reletter f) := by
  have hcells : composition (a.reletter f).pieces (b.reletter f).pieces =
      (composition a.pieces b.pieces).map (Cell.reletter f) := by
    rw [pieces_reletter, pieces_reletter]
    exact align_reletter f (Piece.isDelete_reletter f) (Piece.isInsert_reletter f) _ _ _
  unfold compose
  rw [isEmpty_reletter, isEmpty_reletter, lenAfter_reletter, lenBefore_reletter, hcells,
    List.flatMap_map]
  simp only [Cell.composed_reletter]
  rw [← List.map_flatMap, ofPieces_reletter]
  split
  · rfl
  · split
    · rfl
    · split <;> rfl

/-- Transforming operations with other letters gives the transformed one with other letters. -/
theorem transform_reletter (a b : Operation) (side : Side) :
    (a.reletter f).transform (b.reletter f) side = (a.transform b side).map (reletter f) := by
  have hcells : concurrence side (a.reletter f).pieces (b.reletter f).pieces =
      (concurrence side a.pieces b.pieces).map (Cell.reletter f) := by
    rw [pieces_reletter, pieces_reletter]
    exact align_reletter f (Piece.isInsert_reletter f) (Piece.isInsert_reletter f) _ _ _
  unfold transform
  rw [isEmpty_reletter, isEmpty_reletter, lenBefore_reletter, lenBefore_reletter, hcells,
    List.flatMap_map]
  simp only [Cell.transformed_reletter]
  rw [← List.map_flatMap, ofPieces_reletter]
  split
  · rfl
  · split <;> rfl

end Operation

theorem Span.transform_reletter (span : Span) (op : Operation) (side : Side) :
    span.transform (op.reletter f) side = span.transform op side := by
  simp only [Span.transform, Operation.mapOffset_reletter]

theorem Caret.transform_reletter (caret : Caret) (op : Operation) (side : Side) :
    caret.transform (op.reletter f) side = caret.transform op side := by
  simp only [Caret.transform, Operation.mapOffset_reletter, Span.transform_reletter]

theorem IntervalSet.edit_reletter {κ ν : Type} (set : IntervalSet κ ν) (op : Operation) :
    set.edit (op.reletter f) = set.edit op := by
  simp only [IntervalSet.edit, Interval.move, Operation.isEmpty_reletter,
    Operation.mapOffset_reletter]

end Reletter

/-! ## Shapes -/

/-- The components are of one kind and agree in their lengths. -/
def Component.SameShape : Component → Component → Prop
  | retain n, retain m => n = m
  | replace d i, replace d' i' => d.length = d'.length ∧ i.length = i'.length
  | _, _ => False

/-- The component with its texts made up of fillers. -/
def Component.outline (c : Component) : Component := c.reletter fun _ => IntervalSet.filler

theorem Component.sameShape_iff {c c' : Component} : c.SameShape c' ↔ c.outline = c'.outline := by
  cases c <;> cases c' <;>
    simp [SameShape, outline, reletter, List.map_const', List.replicate_inj]

namespace Operation

/-- The operations agree in the kinds and lengths of their components, one by one. -/
def SameShape (a b : Operation) : Prop :=
  List.Forall₂ Component.SameShape a.components b.components

/-- The operation with all its texts made up of fillers. -/
def outline (op : Operation) : Operation := op.reletter fun _ => IntervalSet.filler

theorem sameShape_iff {a b : Operation} : a.SameShape b ↔ a.outline = b.outline := by
  have hcomponents : a.outline = b.outline ↔
      a.components.map Component.outline = b.components.map Component.outline :=
    ⟨congrArg components, fun h => ext h⟩
  rw [hcomponents, ← List.forall₂_eq_eq_eq, List.forall₂_map_left_iff, List.forall₂_map_right_iff]
  constructor
  · exact List.Forall₂.imp fun _ _ => Component.sameShape_iff.mp
  · exact List.Forall₂.imp fun _ _ => Component.sameShape_iff.mpr

/-- What is the same whatever the letters are is the same for operations of the same shape. -/
theorem SameShape.eq_of_reletter {β : Type} {a b : Operation} (h : a.SameShape b)
    (g : Operation → β) (hg : ∀ f op, g (op.reletter f) = g op) : g a = g b :=
  calc g a = g a.outline := (hg _ a).symm
    _ = g b.outline := by rw [sameShape_iff.mp h]
    _ = g b := hg _ b

/-- Two calls end in the same fault, or give operations of the same shape. -/
inductive Alike : Except Fault Operation → Except Fault Operation → Prop
  | fault (f : Fault) : Alike (.error f) (.error f)
  | ok {a b : Operation} : a.SameShape b → Alike (.ok a) (.ok b)

theorem alike_of_outline_eq {x y : Except Fault Operation} (h : x.map outline = y.map outline) :
    Alike x y := by
  cases x with
  | error f =>
    cases y with
    | error g =>
      injection h with h
      rw [h]
      exact .fault g
    | ok b => cases h
  | ok a =>
    cases y with
    | error g => cases h
    | ok b =>
      injection h with h
      exact .ok (sameShape_iff.mpr h)

variable {a₁ a₂ b₁ b₂ : Operation}

/-- **Only lengths matter.** Let two operations have the same shape, and two others too. Then the
first of each pair compose as the second of each pair do, and transform so on either side: both ways
end in the same fault, or the results have the same shape. Offsets, spans, carets and sets of
intervals, wherever they lie, go to the same places, or their moves end in the same fault. -/
theorem only_lengths_matter (ha : a₁.SameShape a₂) (hb : b₁.SameShape b₂) :
    Alike (a₁.compose b₁) (a₂.compose b₂) ∧
    (∀ side, Alike (a₁.transform b₁ side) (a₂.transform b₂ side)) ∧
    (∀ offset side, a₁.mapOffset offset side = a₂.mapOffset offset side) ∧
    (∀ (span : Span) side, span.transform a₁ side = span.transform a₂ side) ∧
    (∀ (caret : Caret) side, caret.transform a₁ side = caret.transform a₂ side) ∧
    ∀ (κ ν : Type) (set : IntervalSet κ ν), set.edit a₁ = set.edit a₂ := by
  refine ⟨?_, ?_, ?_, ?_, ?_, ?_⟩
  · refine alike_of_outline_eq ?_
    calc (a₁.compose b₁).map outline
      _ = a₁.outline.compose b₁.outline := (compose_reletter _ _ _).symm
      _ = a₂.outline.compose b₂.outline := by rw [sameShape_iff.mp ha, sameShape_iff.mp hb]
      _ = (a₂.compose b₂).map outline := compose_reletter _ _ _
  · intro side
    refine alike_of_outline_eq ?_
    calc (a₁.transform b₁ side).map outline
      _ = a₁.outline.transform b₁.outline side := (transform_reletter _ _ _ _).symm
      _ = a₂.outline.transform b₂.outline side := by
        rw [sameShape_iff.mp ha, sameShape_iff.mp hb]
      _ = (a₂.transform b₂ side).map outline := transform_reletter _ _ _ _
  · intro offset side
    exact ha.eq_of_reletter (·.mapOffset offset side) fun f op => op.mapOffset_reletter f _ _
  · intro span side
    exact ha.eq_of_reletter (span.transform · side) fun f op => span.transform_reletter f op _
  · intro caret side
    exact ha.eq_of_reletter (caret.transform · side) fun f op => caret.transform_reletter f op _
  · intro κ ν set
    exact ha.eq_of_reletter set.edit fun f op => set.edit_reletter f op

/-- Replaces the first two of three characters. -/
def fronted (d₁ d₂ i₁ i₂ : Char) : Operation :=
  ⟨[.replace [d₁, d₂] [i₁, i₂], .retain 1], by simp [Component.lenBefore, Word.bound],
    by simp [Component.lenAfter, Word.bound]⟩

/-- Replaces the last two of three characters by one. -/
def backed (d₁ d₂ i : Char) : Operation :=
  ⟨[.retain 1, .replace [d₁, d₂] [i]], by simp [Component.lenBefore, Word.bound],
    by simp [Component.lenAfter, Word.bound]⟩

/-- Two operations that overlap, and two others filled with dots. Of the text that the first inserts
the second deletes a part; the dots are deleted in the same way, although no dot was inserted. -/
theorem only_lengths_matter_dotted :
    (fronted 'a' 'b' 'x' 'y').compose (backed 'y' 'c' 'q') =
        (ofComponents [.replace ['a', 'b', 'c'] ['x', 'q']]) ∧
      Alike ((fronted 'a' 'b' 'x' 'y').compose (backed 'y' 'c' 'q'))
        ((fronted '.' '.' '-' '-').compose (backed '.' '.' '-')) ∧
      Alike ((fronted 'a' 'b' 'x' 'y').transform (backed 'b' 'c' 'q') .right)
        ((fronted '.' '.' '-' '-').transform (backed '.' '.' '-') .right) ∧
      (fronted 'a' 'b' 'x' 'y').mapOffset 1 .right =
        (fronted '.' '.' '-' '-').mapOffset 1 .right := by
  have hfront : (fronted 'a' 'b' 'x' 'y').SameShape (fronted '.' '.' '-' '-') :=
    .cons ⟨rfl, rfl⟩ (.cons rfl .nil)
  have hafter : (backed 'y' 'c' 'q').SameShape (backed '.' '.' '-') :=
    .cons rfl (.cons ⟨rfl, rfl⟩ .nil)
  have hbeside : (backed 'b' 'c' 'q').SameShape (backed '.' '.' '-') :=
    .cons rfl (.cons ⟨rfl, rfl⟩ .nil)
  refine ⟨by cbv, (only_lengths_matter hfront hafter).1, ?_, ?_⟩
  · exact (only_lengths_matter hfront hbeside).2.1 .right
  · exact (only_lengths_matter hfront hbeside).2.2.1 1 .right

end Operation

end Coedit
