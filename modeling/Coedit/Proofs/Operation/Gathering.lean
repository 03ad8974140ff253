import Coedit.Proofs.Operation.Strokes

/-!
# What gathering leaves

Gathering puts runs together into components and merges whatever can be merged. This file says what
comes out of it:

> `merged_gather`: the components are `Merged`. None of them is empty, and kept runs take turns with
> replacements.

> `Merged.gather_pieces`: components that are merged already come out as they went in.

`gather` works from the last run to the first, and on plain numbers. It can be done from the first
run to the last as well, with every sum checked (`gatherChecked`), and if the runs consume no more
than a word has room for, then no sum overflows and the components are the same
(`gatherChecked_eq`).
-/

namespace Coedit

/-- The component has characters: some that it keeps, or some that it deletes or inserts. -/
def Component.HasCharacters : Component → Prop
  | retain n => 0 < n
  | replace d i => d ≠ [] ∨ i ≠ []

/-- Components with nothing left to merge. -/
structure Merged (cs : List Component) : Prop where
  /-- No component is empty. -/
  hasCharacters : ∀ c ∈ cs, c.HasCharacters
  /-- Kept runs and replacements take turns. -/
  alternates : cs.IsChain fun c c' => c.isRetain ≠ c'.isRetain

theorem merged_nil : Merged [] where
  hasCharacters := fun _ h => absurd h List.not_mem_nil
  alternates := .nil

theorem merged_cons {c : Component} {cs : List Component} :
    Merged (c :: cs) ↔
      c.HasCharacters ∧ (∀ c' ∈ cs.head?, c.isRetain ≠ c'.isRetain) ∧ Merged cs := by
  constructor
  · intro h
    obtain ⟨hnext, hrest⟩ := List.isChain_cons.mp h.alternates
    exact ⟨h.hasCharacters c (List.mem_cons_self ..), hnext,
      ⟨fun c' hc' => h.hasCharacters c' (List.mem_cons_of_mem _ hc'), hrest⟩⟩
  · intro h
    obtain ⟨hc, hnext, hrest⟩ := h
    refine ⟨fun c' hc' => ?_, List.isChain_cons.mpr ⟨hnext, hrest.alternates⟩⟩
    rcases List.mem_cons.mp hc' with rfl | hc'
    · exact hc
    · exact hrest.hasCharacters c' hc'

/-- Which of two kinds comes first does not matter for taking turns. -/
theorem Merged.reverse {cs : List Component} (h : Merged cs) : Merged cs.reverse where
  hasCharacters := fun c hc => h.hasCharacters c (List.mem_reverse.mp hc)
  alternates := List.isChain_reverse.mpr (h.alternates.imp fun _ _ => Ne.symm)

/-! ## Merging a run into components -/

/-- A run put in front of merged components merges into the first one or stands next to one of the
other kind. -/
theorem Merged.onto {cs : List Component} (h : Merged cs) (p : Piece) : Merged (p.onto cs) := by
  by_cases hp : p.size = 0
  · rw [Piece.onto_of_size_eq_zero hp]
    exact h
  cases cs with
  | nil =>
    cases p <;>
      simp_all [Piece.onto, Piece.size, merged_cons, Component.HasCharacters, Nat.pos_of_ne_zero]
  | cons c cs =>
    obtain ⟨hc, hnext, hcs⟩ := merged_cons.mp h
    cases p <;> cases c <;>
      simp_all [Piece.onto, Piece.size, merged_cons, Component.HasCharacters, Component.isRetain,
        Nat.pos_of_ne_zero]

/-- **Gathered runs are merged.** -/
theorem merged_gather (ps : List Piece) : Merged (gather ps) := by
  induction ps with
  | nil => exact merged_nil
  | cons p ps ih => exact ih.onto p

namespace Component

theorem foldr_onto_pieces_retain (n : Nat) (cs : List Component) :
    (retain n).pieces.foldr Piece.onto cs = (Piece.retain n).onto cs := Piece.foldr_onto_filter ..

theorem foldr_onto_pieces_replace (d i : Text) (cs : List Component) :
    (replace d i).pieces.foldr Piece.onto cs = (Piece.delete d).onto ((Piece.insert i).onto cs) :=
  Piece.foldr_onto_filter ..

/-- The runs of a component that cannot merge with what follows are put together to the component
itself. -/
theorem foldr_onto_pieces_eq_cons {c : Component} {cs : List Component}
    (hc : c.HasCharacters) (hnext : ∀ c' ∈ cs.head?, c.isRetain ≠ c'.isRetain) :
    c.pieces.foldr Piece.onto cs = c :: cs := by
  cases c with
  | retain n =>
    rw [foldr_onto_pieces_retain]
    have hn : n ≠ 0 := Nat.ne_of_gt hc
    cases cs with
    | nil => simp [Piece.onto, Piece.size, hn]
    | cons c' cs => cases c' <;> simp_all [Piece.onto, Piece.size, isRetain]
  | replace d i =>
    rw [foldr_onto_pieces_replace]
    cases cs with
    | nil =>
      cases d <;> cases i <;> simp_all [Piece.onto, Piece.size, HasCharacters]
    | cons c' cs =>
      cases c' <;> cases d <;> cases i <;>
        simp_all [Piece.onto, Piece.size, HasCharacters, isRetain]

end Component

/-- **Merged components stay as they are.** -/
theorem Merged.gather_pieces {cs : List Component} (h : Merged cs) : gather (pieces cs) = cs := by
  induction cs with
  | nil => rfl
  | cons c cs ih =>
    obtain ⟨hc, hnext, hcs⟩ := merged_cons.mp h
    rw [pieces, List.flatMap_cons, gather_append, ← pieces, ih hcs,
      c.foldr_onto_pieces_eq_cons hc hnext]

/-! ## From the first run to the last -/

/-- Puts a run behind components of which the last one comes first. A sum of kept characters is
checked. -/
def Piece.joinTo (p : Piece) (out : List Component) : Except Fault (List Component) :=
  if p.size = 0 then .ok out
  else match p, out with
    | retain n, .retain m :: rest => do
      let count ← Word.add m n
      .ok (.retain count :: rest)
    | retain n, out => .ok (.retain n :: out)
    | delete t, .replace d i :: rest => .ok (.replace (d ++ t) i :: rest)
    | delete t, out => .ok (.replace t [] :: out)
    | insert t, .replace d i :: rest => .ok (.replace d (i ++ t) :: rest)
    | insert t, out => .ok (.replace [] t :: out)

/-- The components that runs amount to, put together from the first run to the last. -/
def gatherChecked (ps : List Piece) : Except Fault (List Component) := do
  let out ← ps.foldlM (fun out p => p.joinTo out) []
  .ok out.reverse

namespace Piece

/-- A run may be put in front of components in two parts. -/
theorem onto_of_strokes_append {p q r : Piece} (h : r.strokes = p.strokes ++ q.strokes)
    (cs : List Component) : r.onto cs = p.onto (q.onto cs) := by
  rw [← foldr_onto_strokes r, h, List.foldr_append, foldr_onto_strokes, foldr_onto_strokes]

theorem onto_retain_add (m n : Nat) (cs : List Component) :
    (retain (m + n)).onto cs = (retain m).onto ((retain n).onto cs) :=
  onto_of_strokes_append (by simp [strokes]) cs

theorem onto_delete_append (s t : Text) (cs : List Component) :
    (delete (s ++ t)).onto cs = (delete s).onto ((delete t).onto cs) :=
  onto_of_strokes_append (by simp [strokes]) cs

theorem onto_insert_append (s t : Text) (cs : List Component) :
    (insert (s ++ t)).onto cs = (insert s).onto ((insert t).onto cs) :=
  onto_of_strokes_append (by simp [strokes]) cs

end Piece

theorem pieces_reverse_cons (c : Component) (out : List Component) :
    pieces (c :: out).reverse = pieces out.reverse ++ c.pieces := by
  rw [List.reverse_cons, pieces, List.flatMap_append, List.flatMap_singleton, pieces]

/-- The run has been put behind the components: whatever follows, it is gathered between the two. -/
structure Joined (p : Piece) (out out' : List Component) : Prop where
  merged : Merged out'
  inputLength_eq : inputLength out' = p.lenBefore + inputLength out
  foldr_onto : ∀ cs, (pieces out'.reverse).foldr Piece.onto cs =
    (pieces out.reverse).foldr Piece.onto (p.onto cs)

/-- The component that a run makes on its own. -/
def Piece.alone : Piece → Component
  | retain n => .retain n
  | delete t => .replace t []
  | insert t => .replace [] t

/-- A run that is not empty and finds no component of its kind becomes one. -/
theorem joined_alone {p : Piece} {out : List Component} (hp : p.size ≠ 0) (hout : Merged out)
    (hnext : ∀ c ∈ out.head?, p.alone.isRetain ≠ c.isRetain) : Joined p out (p.alone :: out) where
  merged := by
    have hc : p.alone.HasCharacters := by
      cases p <;>
        simp_all [Piece.alone, Component.HasCharacters, Piece.size, Nat.pos_of_ne_zero]
    exact merged_cons.mpr ⟨hc, hnext, hout⟩
  inputLength_eq := by cases p <;> rfl
  foldr_onto := fun cs => by
    rw [pieces_reverse_cons, List.foldr_append]
    cases p with
    | retain n => rw [Piece.alone, Component.foldr_onto_pieces_retain]
    | delete t =>
      rw [Piece.alone, Component.foldr_onto_pieces_replace,
        Piece.onto_of_size_eq_zero (p := .insert []) rfl]
    | insert t =>
      rw [Piece.alone, Component.foldr_onto_pieces_replace,
        Piece.onto_of_size_eq_zero (p := .delete []) rfl]

/-- A run that finds a component of its kind becomes a part of it. -/
theorem joined_merge {p : Piece} {c c' : Component} {rest : List Component}
    (hout : Merged (c :: rest)) (hc' : c'.HasCharacters) (hkind : c'.isRetain = c.isRetain)
    (hlen : c'.lenBefore = p.lenBefore + c.lenBefore)
    (honto : ∀ cs, c'.pieces.foldr Piece.onto cs = c.pieces.foldr Piece.onto (p.onto cs)) :
    Joined p (c :: rest) (c' :: rest) where
  merged := by
    obtain ⟨-, hnext, hrest⟩ := merged_cons.mp hout
    exact merged_cons.mpr ⟨hc', hkind ▸ hnext, hrest⟩
  inputLength_eq := by rw [inputLength_cons, inputLength_cons, hlen, Nat.add_assoc]
  foldr_onto := fun cs => by
    rw [pieces_reverse_cons, pieces_reverse_cons, List.foldr_append, List.foldr_append, honto]

/-- With room for all that they consume, a run can be put behind merged components. -/
theorem Piece.exists_joinTo {p : Piece} {out : List Component} (hout : Merged out)
    (hfit : p.lenBefore + inputLength out < Word.bound) :
    ∃ out', p.joinTo out = .ok out' ∧ Joined p out out' := by
  by_cases hp : p.size = 0
  · refine ⟨out, if_pos hp, hout, ?_, ?_⟩
    · rw [lenBefore_of_size_eq_zero hp, Nat.zero_add]
    · intro cs
      rw [onto_of_size_eq_zero hp]
  unfold joinTo
  rw [if_neg hp]
  cases out with
  | nil => cases p <;> exact ⟨_, rfl, joined_alone hp hout (by simp)⟩
  | cons c rest =>
    cases p with
    | retain n =>
      cases c with
      | replace d i => exact ⟨_, rfl, joined_alone hp hout (by simp [alone, Component.isRetain])⟩
      | retain m =>
        have hsum : Word.add m n = .ok (m + n) := by
          rw [Word.add, if_pos]
          rw [inputLength_cons] at hfit
          simp only [lenBefore, Component.lenBefore] at hfit
          omega
        refine ⟨.retain (m + n) :: rest, by simp only [hsum]; rfl, joined_merge hout ?_ rfl ?_ ?_⟩
        · exact Nat.add_pos_right m (Nat.pos_of_ne_zero hp)
        · exact Nat.add_comm m n
        · intro cs
          rw [Component.foldr_onto_pieces_retain, Component.foldr_onto_pieces_retain,
            onto_retain_add]
    | delete t =>
      have ht : t ≠ [] := fun h => hp (by rw [h]; rfl)
      cases c with
      | retain m => exact ⟨_, rfl, joined_alone hp hout (by simp [alone, Component.isRetain])⟩
      | replace d i =>
        refine ⟨_, rfl, joined_merge hout (Or.inl (by simp [ht])) rfl ?_ ?_⟩
        · simp only [Component.lenBefore, lenBefore, List.length_append, Nat.add_comm]
        · -- the deletion passes the insertion that is there already
          intro cs
          rw [Component.foldr_onto_pieces_replace, Component.foldr_onto_pieces_replace,
            onto_delete_append, onto_comm]
    | insert t =>
      have ht : t ≠ [] := fun h => hp (by rw [h]; rfl)
      cases c with
      | retain m => exact ⟨_, rfl, joined_alone hp hout (by simp [alone, Component.isRetain])⟩
      | replace d i =>
        refine ⟨_, rfl, joined_merge hout (Or.inr (by simp [ht])) rfl ?_ ?_⟩
        · simp only [Component.lenBefore, lenBefore, Nat.zero_add]
        · intro cs
          rw [Component.foldr_onto_pieces_replace, Component.foldr_onto_pieces_replace,
            onto_insert_append]

theorem exists_foldlM_joinTo {ps : List Piece} {out : List Component} (hout : Merged out)
    (hfit : total Piece.lenBefore ps + inputLength out < Word.bound) :
    ∃ out', ps.foldlM (fun out p => p.joinTo out) out = .ok out' ∧ Merged out' ∧
      gather (pieces out'.reverse) = gather (pieces out.reverse ++ ps) := by
  induction ps generalizing out with
  | nil => exact ⟨out, rfl, hout, by rw [List.append_nil]⟩
  | cons p ps ih =>
    rw [total_cons] at hfit
    obtain ⟨next, hnext, hjoined⟩ := Piece.exists_joinTo hout (p := p) (by omega)
    obtain ⟨out', hout', hmerged, hgather⟩ := ih hjoined.merged (by
      rw [hjoined.inputLength_eq]
      omega)
    refine ⟨out', ?_, hmerged, ?_⟩
    · rw [List.foldlM_cons]
      exact bind_eq_ok.mpr ⟨next, hnext, hout'⟩
    · rw [hgather, gather_append, gather_append, hjoined.foldr_onto, gather_cons]

/-- **No sum overflows on the way.** Put together from the first run to the last, runs that consume
no more than a word has room for give the components that they gather to. -/
theorem gatherChecked_eq {ps : List Piece} (hfit : total Piece.lenBefore ps < Word.bound) :
    gatherChecked ps = .ok (gather ps) := by
  obtain ⟨out, hout, hmerged, hgather⟩ := @exists_foldlM_joinTo ps [] merged_nil hfit
  rw [hmerged.reverse.gather_pieces] at hgather
  exact bind_eq_ok.mpr ⟨out, hout, congrArg Except.ok hgather⟩

end Coedit
