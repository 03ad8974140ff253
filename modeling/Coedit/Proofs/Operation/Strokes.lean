import Coedit.Proofs.Operation.Inversion

/-!
# Composing character by character

Composition cuts runs where the runs of the other side end, and gathers what is left into components
with no regard to where the cuts were. To speak of three operations at once it is easier not to have
runs at all. A *stroke* is what becomes of a single character, and an operation is a list of
strokes, `Operation.strokes`.

On strokes composition is a plain recursion with one rule for each pair of strokes that can meet,
`meld`. This file proves that it is the composition of operations, up to gathering:

> `Operation.spell_compose`: if `a.compose b` is `c`, then the strokes of `c` and the melded strokes
> of `a` and `b` gather to the same components.

Gathering, `spell`, puts a deletion before an insertion beside it, so the strokes of what was gathered
may stand in another order than before. Melding does not see the difference on either side
(`spell_meld_strokesOf_left`, `spell_meld_strokesOf_right`).
-/

namespace Coedit

/-- What becomes of one character. -/
inductive Stroke where
  | keep
  | delete (c : Char)
  | insert (c : Char)
  deriving DecidableEq, Repr

/-- The stroke as a run. -/
def Stroke.piece : Stroke → Piece
  | keep => .retain 1
  | delete c => .delete [c]
  | insert c => .insert [c]

/-- The strokes of a run. -/
def Piece.strokes : Piece → List Stroke
  | retain n => List.replicate n .keep
  | delete t => t.map .delete
  | insert t => t.map .insert

/-- The strokes of a component. -/
def Component.strokes : Component → List Stroke
  | retain n => List.replicate n .keep
  | replace d i => d.map .delete ++ i.map .insert

/-- The strokes of components. -/
def strokesOf (cs : List Component) : List Stroke := cs.flatMap Component.strokes

/-- The components that strokes gather to. -/
def spell (us : List Stroke) : List Component := us.foldr (fun u cs => u.piece.onto cs) []

/-- The strokes of a first and then a second side, as they meet at the text in between. -/
def meld : List Stroke → List Stroke → List Stroke
  | [], vs => vs
  | us, [] => us
  | .delete c :: us, vs => .delete c :: meld us vs
  | us, .insert c :: vs => .insert c :: meld us vs
  | .keep :: us, .keep :: vs => .keep :: meld us vs
  | .keep :: us, .delete c :: vs => .delete c :: meld us vs
  | .insert c :: us, .keep :: vs => .insert c :: meld us vs
  | .insert _ :: us, .delete _ :: vs => meld us vs
termination_by us vs => us.length + vs.length

/-! ## The rules of melding -/

section Meld

variable (c d : Char) (us vs : List Stroke)

@[simp] theorem meld_nil_left : meld [] vs = vs := by rw [meld]

@[simp] theorem meld_nil_right : meld us [] = us := by cases us <;> simp [meld]

@[simp] theorem meld_delete : meld (.delete c :: us) vs = .delete c :: meld us vs := by
  cases vs <;> simp [meld]

@[simp] theorem meld_keep_insert :
    meld (.keep :: us) (.insert d :: vs) = .insert d :: meld (.keep :: us) vs := by rw [meld] <;> simp

@[simp] theorem meld_insert_insert :
    meld (.insert c :: us) (.insert d :: vs) = .insert d :: meld (.insert c :: us) vs := by
  rw [meld] <;> simp

@[simp] theorem meld_keep_keep : meld (.keep :: us) (.keep :: vs) = .keep :: meld us vs := by
  rw [meld]

@[simp] theorem meld_keep_delete :
    meld (.keep :: us) (.delete d :: vs) = .delete d :: meld us vs := by rw [meld]

@[simp] theorem meld_insert_keep :
    meld (.insert c :: us) (.keep :: vs) = .insert c :: meld us vs := by rw [meld]

@[simp] theorem meld_insert_delete :
    meld (.insert c :: us) (.delete d :: vs) = meld us vs := by rw [meld]

end Meld

/-- **Melding is associative.** Strokes of three sides that meet at one place follow the rules for
pairs, whichever pair is taken first. -/
theorem meld_assoc : ∀ us vs ws : List Stroke, meld (meld us vs) ws = meld us (meld vs ws)
  | [], vs, ws => by simp
  | u :: us, [], ws => by simp
  | u :: us, v :: vs, [] => by simp
  -- a deletion of the first side, then one of the second
  | .delete c :: us, v :: vs, w :: ws => by simp [meld_assoc us (v :: vs) (w :: ws)]
  | .keep :: us, .delete d :: vs, w :: ws => by simp [meld_assoc us vs (w :: ws)]
  | .insert c :: us, .delete d :: vs, w :: ws => by simp [meld_assoc us vs (w :: ws)]
  -- an insertion of the last side
  | .keep :: us, .keep :: vs, .insert e :: ws => by
    simpa using meld_assoc (.keep :: us) (.keep :: vs) ws
  | .keep :: us, .insert d :: vs, .insert e :: ws => by
    simpa using meld_assoc (.keep :: us) (.insert d :: vs) ws
  | .insert c :: us, .keep :: vs, .insert e :: ws => by
    simpa using meld_assoc (.insert c :: us) (.keep :: vs) ws
  | .insert c :: us, .insert d :: vs, .insert e :: ws => by
    simpa using meld_assoc (.insert c :: us) (.insert d :: vs) ws
  -- an insertion of the second side, which the last one keeps or deletes
  | .keep :: us, .insert d :: vs, .keep :: ws => by simp [meld_assoc (.keep :: us) vs ws]
  | .keep :: us, .insert d :: vs, .delete e :: ws => by simp [meld_assoc (.keep :: us) vs ws]
  | .insert c :: us, .insert d :: vs, .keep :: ws => by simp [meld_assoc (.insert c :: us) vs ws]
  | .insert c :: us, .insert d :: vs, .delete e :: ws => by
    simp [meld_assoc (.insert c :: us) vs ws]
  -- a character that all three sides have
  | .keep :: us, .keep :: vs, .keep :: ws => by simp [meld_assoc us vs ws]
  | .keep :: us, .keep :: vs, .delete e :: ws => by simp [meld_assoc us vs ws]
  | .insert c :: us, .keep :: vs, .keep :: ws => by simp [meld_assoc us vs ws]
  | .insert c :: us, .keep :: vs, .delete e :: ws => by simp [meld_assoc us vs ws]
termination_by us vs ws => us.length + vs.length + ws.length

/-! ## Gathering strokes -/

@[simp] theorem spell_nil : spell [] = [] := rfl

@[simp] theorem spell_cons (u : Stroke) (us : List Stroke) :
    spell (u :: us) = u.piece.onto (spell us) := rfl

@[simp] theorem strokesOf_nil : strokesOf [] = [] := rfl

@[simp] theorem strokesOf_cons (c : Component) (cs : List Component) :
    strokesOf (c :: cs) = c.strokes ++ strokesOf cs := rfl

theorem Piece.onto_retain_succ (n : Nat) (cs : List Component) :
    (retain (n + 1)).onto cs = (retain 1).onto ((retain n).onto cs) := by
  cases n with
  | zero => rw [onto_of_size_eq_zero (p := retain 0) rfl]
  | succ n =>
    cases cs with
    | nil => simp [onto, size, Nat.add_comm]
    | cons c cs => cases c <;> simp [onto, size] <;> omega

theorem Piece.onto_delete_cons (c : Char) (t : Text) (cs : List Component) :
    (delete (c :: t)).onto cs = (delete [c]).onto ((delete t).onto cs) := by
  cases t with
  | nil => rw [onto_of_size_eq_zero (p := delete []) rfl]
  | cons c' t =>
    cases cs with
    | nil => simp [onto, size]
    | cons e cs => cases e <;> simp [onto, size]

theorem Piece.onto_insert_cons (c : Char) (t : Text) (cs : List Component) :
    (insert (c :: t)).onto cs = (insert [c]).onto ((insert t).onto cs) := by
  cases t with
  | nil => rw [onto_of_size_eq_zero (p := insert []) rfl]
  | cons c' t =>
    cases cs with
    | nil => simp [onto, size]
    | cons e cs => cases e <;> simp [onto, size]

/-- A run gathers to what its strokes gather to. -/
theorem Piece.foldr_onto_strokes (p : Piece) (cs : List Component) :
    p.strokes.foldr (fun u cs => u.piece.onto cs) cs = p.onto cs := by
  cases p with
  | retain n =>
    induction n with
    | zero => exact (onto_of_size_eq_zero rfl cs).symm
    | succ n ih =>
      rw [onto_retain_succ, ← ih]
      rfl
  | delete t =>
    induction t with
    | nil => exact (onto_of_size_eq_zero rfl cs).symm
    | cons c t ih =>
      rw [onto_delete_cons, ← ih]
      rfl
  | insert t =>
    induction t with
    | nil => exact (onto_of_size_eq_zero rfl cs).symm
    | cons c t ih =>
      rw [onto_insert_cons, ← ih]
      rfl

theorem spell_flatMap_strokes_append (ps : List Piece) (us : List Stroke) :
    spell (ps.flatMap Piece.strokes ++ us) = ps.foldr Piece.onto (spell us) := by
  induction ps with
  | nil => rfl
  | cons p ps ih =>
    rw [List.flatMap_cons, List.append_assoc, spell, List.foldr_append, p.foldr_onto_strokes,
      ← spell, ih, List.foldr_cons]

theorem spell_strokes_append (p : Piece) (us : List Stroke) :
    spell (p.strokes ++ us) = p.onto (spell us) := by
  simpa using spell_flatMap_strokes_append [p] us

/-- Runs gather to what their strokes gather to. -/
theorem gather_eq_spell (ps : List Piece) : gather ps = spell (ps.flatMap Piece.strokes) := by
  have h := spell_flatMap_strokes_append ps []
  rw [List.append_nil, spell_nil] at h
  exact h.symm

theorem flatMap_strokes_pieces (cs : List Component) :
    (pieces cs).flatMap Piece.strokes = strokesOf cs := by
  have hempty : ∀ ps : List Piece, (ps.filter fun p => p.size != 0).flatMap Piece.strokes =
      ps.flatMap Piece.strokes := by
    intro ps
    have hread := @Piece.read_filter_append (List Stroke) (fun ps => ps.flatMap Piece.strokes)
      (by intro p ps hp; cases p <;> simp_all [Piece.strokes, Piece.size])
      (by intro p ps qs hpq; simp only [List.flatMap_cons, hpq]) ps []
    simpa using hread
  induction cs with
  | nil => rfl
  | cons c cs ih =>
    rw [pieces, List.flatMap_cons, List.flatMap_append, ← pieces, ih, strokesOf_cons]
    cases c with
    | retain n =>
      rw [Component.pieces, hempty]
      simp [Piece.strokes, Component.strokes]
    | replace d i =>
      rw [Component.pieces, hempty]
      simp [Piece.strokes, Component.strokes]

/-- Components gather to what their strokes gather to. -/
theorem gather_pieces_eq_spell (cs : List Component) : gather (pieces cs) = spell (strokesOf cs) := by
  rw [gather_eq_spell, flatMap_strokes_pieces]

/-! ## Melding and gathering -/

/-- An insertion of the second side may come before everything else: only deletions of the first
side go before it. -/
theorem spell_meld_insert (c : Char) (us vs : List Stroke) :
    spell (meld us (.insert c :: vs)) = (Piece.insert [c]).onto (spell (meld us vs)) := by
  induction us with
  | nil => simp [Stroke.piece]
  | cons u us ih =>
    cases u with
    | keep => simp [Stroke.piece]
    | insert d => simp [Stroke.piece]
    | delete d => simp only [meld_delete, spell_cons, ih, Stroke.piece, Piece.onto_comm]

/-- A deletion behind an insertion of the first side can be moved in front of it. -/
theorem spell_meld_insert_delete (c d : Char) (us vs : List Stroke) :
    spell (meld (.insert c :: .delete d :: us) vs) =
      spell (meld (.delete d :: .insert c :: us) vs) := by
  induction vs with
  | nil => simp [Stroke.piece, Piece.onto_comm]
  | cons v vs ih =>
    cases v with
    | keep => simp [Stroke.piece, Piece.onto_comm]
    | delete e => simp
    | insert e => rw [spell_meld_insert, spell_meld_insert, ih]

/-- An insertion behind a deletion of the second side can be moved in front of it. -/
theorem spell_meld_delete_insert (c d : Char) (us vs : List Stroke) :
    spell (meld us (.delete d :: .insert c :: vs)) =
      spell (meld us (.insert c :: .delete d :: vs)) := by
  rw [spell_meld_insert]
  induction us with
  | nil => simp [Stroke.piece, Piece.onto_comm]
  | cons u us ih =>
    cases u with
    | keep =>
      rw [meld_keep_delete, meld_keep_delete, spell_cons, spell_cons, spell_meld_insert]
      exact Piece.onto_comm ..
    | delete e =>
      rw [meld_delete, meld_delete, spell_cons, spell_cons, ih]
      exact Piece.onto_comm ..
    | insert e => rw [meld_insert_delete, meld_insert_delete, spell_meld_insert]

/-- What comes after the first stroke of the first side matters only for what it melds to. -/
theorem spell_meld_cons_congr_left {us us' : List Stroke}
    (h : ∀ vs, spell (meld us vs) = spell (meld us' vs)) (u : Stroke) (vs : List Stroke) :
    spell (meld (u :: us) vs) = spell (meld (u :: us') vs) := by
  have hnil := h []
  rw [meld_nil_right, meld_nil_right] at hnil
  induction vs with
  | nil => simp only [meld_nil_right, spell_cons, hnil]
  | cons v vs ih =>
    cases u with
    | delete c => simp only [meld_delete, spell_cons, h]
    | keep => cases v <;> simp_all
    | insert c => cases v <;> simp_all

/-- What comes after the first stroke of the second side matters only for what it melds to. -/
theorem spell_meld_cons_congr_right {vs vs' : List Stroke}
    (h : ∀ us, spell (meld us vs) = spell (meld us vs')) (v : Stroke) (us : List Stroke) :
    spell (meld us (v :: vs)) = spell (meld us (v :: vs')) := by
  have hnil := h []
  rw [meld_nil_left, meld_nil_left] at hnil
  induction us with
  | nil => simp only [meld_nil_left, spell_cons, hnil]
  | cons u us ih =>
    cases v with
    | insert c => simp only [spell_meld_insert, h]
    | keep => cases u <;> simp_all
    | delete c => cases u <;> simp_all

/-- The strokes of components with one more stroke in front are those strokes, except that an
insertion goes behind the deletions of a replacement. -/
theorem strokesOf_onto (u : Stroke) (cs : List Component) :
    strokesOf (u.piece.onto cs) = u :: strokesOf cs ∨
      ∃ (c : Char) (d : Text) (us : List Stroke), u = .insert c ∧
        strokesOf cs = d.map .delete ++ us ∧
        strokesOf (u.piece.onto cs) = d.map .delete ++ .insert c :: us := by
  cases cs with
  | nil => cases u <;> exact Or.inl rfl
  | cons e cs =>
    cases u with
    | keep =>
      cases e with
      | retain n =>
        left
        simp [Stroke.piece, Piece.onto, Piece.size, Component.strokes, Nat.add_comm 1,
          List.replicate_succ]
      | replace d i => exact Or.inl rfl
    | delete c => cases e <;> exact Or.inl rfl
    | insert c =>
      cases e with
      | retain n => exact Or.inl rfl
      | replace d i =>
        refine Or.inr ⟨c, d, i.map .insert ++ strokesOf cs, rfl, ?_, ?_⟩
        · simp [Component.strokes]
        · simp [Stroke.piece, Piece.onto, Piece.size, Component.strokes]

/-- Melding on the left does not see whether strokes have been gathered. -/
theorem spell_meld_strokesOf_left (us vs : List Stroke) :
    spell (meld (strokesOf (spell us)) vs) = spell (meld us vs) := by
  induction us generalizing vs with
  | nil => rfl
  | cons u us ih =>
    rw [spell_cons, ← spell_meld_cons_congr_left ih u vs]
    rcases strokesOf_onto u (spell us) with h | ⟨c, d, ws, rfl, hws, h⟩
    · rw [h]
    · -- the insertion passes the deletions one by one
      rw [h, hws]
      clear h hws ih
      induction d generalizing vs with
      | nil => rfl
      | cons e d ihd =>
        rw [List.map_cons, List.cons_append, List.cons_append, spell_meld_insert_delete]
        exact spell_meld_cons_congr_left ihd _ vs

/-- Melding on the right does not see it either. -/
theorem spell_meld_strokesOf_right (us vs : List Stroke) :
    spell (meld us (strokesOf (spell vs))) = spell (meld us vs) := by
  induction vs generalizing us with
  | nil => rfl
  | cons v vs ih =>
    rw [spell_cons, ← spell_meld_cons_congr_right ih v us]
    rcases strokesOf_onto v (spell vs) with h | ⟨c, d, ws, rfl, hws, h⟩
    · rw [h]
    · rw [h, hws]
      clear h hws ih
      induction d generalizing us with
      | nil => rfl
      | cons e d ihd =>
        rw [List.map_cons, List.cons_append, List.cons_append, ← spell_meld_delete_insert]
        exact spell_meld_cons_congr_right ihd _ us

/-- What has been gathered once stays as it is. -/
theorem spell_strokesOf_spell (us : List Stroke) : spell (strokesOf (spell us)) = spell us := by
  simpa using spell_meld_strokesOf_left us []

theorem spell_meld_congr_left {us us' : List Stroke} (h : spell us = spell us')
    (vs : List Stroke) : spell (meld us vs) = spell (meld us' vs) := by
  rw [← spell_meld_strokesOf_left, h, spell_meld_strokesOf_left]

theorem spell_meld_congr_right {vs vs' : List Stroke} (h : spell vs = spell vs')
    (us : List Stroke) : spell (meld us vs) = spell (meld us vs') := by
  rw [← spell_meld_strokesOf_right, h, spell_meld_strokesOf_right]

/-! ## Composition is melding -/

namespace Piece

/-- Cutting a run does not change the strokes. -/
theorem strokes_take_append_resume (k : Nat) (p : Piece) (ps : List Piece) :
    (p.take k).strokes ++ (p.resume k ps).flatMap strokes = p.strokes ++ ps.flatMap strokes := by
  have hcut : (p.take k).strokes ++ (p.drop k).strokes = p.strokes := by
    cases p with
    | retain n =>
      rw [take, drop, strokes, strokes, strokes, List.replicate_append_replicate]
      congr 1
      omega
    | delete t => simp [take, drop, strokes]
    | insert t => simp [take, drop, strokes]
  rcases Nat.lt_or_ge k p.size with hk | hk
  · rw [resume_of_lt hk, List.flatMap_cons, ← List.append_assoc, hcut]
  · have hdrop : (p.drop k).strokes = [] := by
      cases p <;> simp_all [size, drop, strokes]
    rw [hdrop, List.append_nil] at hcut
    rw [resume_of_le hk, hcut]

end Piece

theorem meld_strokes_delete (d : Text) (us vs : List Stroke) :
    meld ((Piece.delete d).strokes ++ us) vs = (Piece.delete d).strokes ++ meld us vs := by
  induction d with
  | nil => rfl
  | cons c d ih =>
    simp only [Piece.strokes, List.map_cons, List.cons_append, meld_delete] at ih ⊢
    rw [ih]

theorem spell_meld_strokes_insert (i : Text) (us vs : List Stroke) :
    spell (meld us ((Piece.insert i).strokes ++ vs)) =
      (Piece.insert i).onto (spell (meld us vs)) := by
  induction i with
  | nil => exact (Piece.onto_of_size_eq_zero rfl _).symm
  | cons c i ih =>
    rw [Piece.onto_insert_cons, ← ih]
    exact spell_meld_insert ..

/-- Runs of the same size that meet in the text in between meld to what their cell of the alignment
contributes. -/
theorem meld_strokes_both {p q : Piece} (hp : ¬ p.isDelete) (hq : ¬ q.isInsert)
    (hsize : p.size = q.size) (us vs : List Stroke) :
    meld (p.strokes ++ us) (q.strokes ++ vs) =
      (Cell.both p q).composed.flatMap Piece.strokes ++ meld us vs := by
  cases p with
  | delete t => exact absurd rfl hp
  | retain n =>
    cases q with
    | insert t => exact absurd rfl hq
    | retain m =>
      obtain rfl : n = m := hsize
      clear hp hq
      induction n with
      | zero => rfl
      | succ n ih => simp_all [Piece.strokes, Cell.composed, List.replicate_succ]
    | delete t =>
      obtain rfl : n = t.length := hsize
      clear hp hq
      induction t with
      | nil => rfl
      | cons c t ih => simp_all [Piece.strokes, Cell.composed, List.replicate_succ]
  | insert t =>
    cases q with
    | insert u => exact absurd rfl hq
    | retain m =>
      obtain rfl : t.length = m := hsize
      clear hp hq
      induction t with
      | nil => rfl
      | cons c t ih => simp_all [Piece.strokes, Cell.composed, List.replicate_succ]
    | delete u =>
      induction t generalizing u with
      | nil =>
        obtain rfl : u = [] := List.length_eq_zero_iff.mp hsize.symm
        rfl
      | cons c t ih =>
        cases u with
        | nil => cases hsize
        | cons d u =>
          have hrest := ih Bool.false_ne_true u Bool.false_ne_true (Nat.succ.inj hsize)
          simpa [Piece.strokes, Cell.composed] using hrest

/-- **Composition is melding**, for runs. The induction follows their alignment. -/
theorem composedComponents_eq_spell (ps qs : List Piece) :
    composedComponents ps qs =
      spell (meld (ps.flatMap Piece.strokes) (qs.flatMap Piece.strokes)) := by
  fun_induction align Piece.isDelete Piece.isInsert .left ps qs with
  | case1 => rw [composedComponents_nil, List.flatMap_nil, meld_nil_left, spell_nil]
  | case2 p ps ih =>
    rw [composedComponents_nil_right, ih, List.flatMap_nil, meld_nil_right, meld_nil_right,
      List.flatMap_cons, spell_strokes_append]
  | case3 q qs ih =>
    rw [composedComponents_nil_left, ih, List.flatMap_nil, meld_nil_left, meld_nil_left,
      List.flatMap_cons, spell_strokes_append]
  | case4 p ps q qs hfree ih =>
    cases p with
    | retain n => exact absurd hfree.1 Bool.false_ne_true
    | insert t => exact absurd hfree.1 Bool.false_ne_true
    | delete d =>
      rw [composedComponents_delete, ih, List.flatMap_cons (x := Piece.delete d),
        meld_strokes_delete, spell_strokes_append]
  | case5 p ps q qs _ hfree ih =>
    cases q with
    | retain n => exact absurd hfree Bool.false_ne_true
    | delete d => exact absurd hfree Bool.false_ne_true
    | insert i =>
      rw [composedComponents_insert, ih, List.flatMap_cons (x := Piece.insert i),
        spell_meld_strokes_insert]
  | case6 p ps q qs hleft hright ih =>
    have hp : ¬ p.isDelete := fun h => hleft ⟨h, Or.inl rfl⟩
    have hsize : (p.take q.size).size = (q.take p.size).size := by
      rw [Piece.size_take, Piece.size_take, Nat.min_comm]
    rw [composedComponents_both hp hright, ih, List.flatMap_cons, List.flatMap_cons,
      ← Piece.strokes_take_append_resume q.size p, ← Piece.strokes_take_append_resume p.size q,
      meld_strokes_both (by rw [Piece.isDelete_take]; exact hp)
        (by rw [Piece.isInsert_take]; exact hright) hsize,
      spell_flatMap_strokes_append]

namespace Operation

/-- The strokes of the operation. -/
def strokes (op : Operation) : List Stroke := strokesOf op.components

@[simp] theorem strokes_empty : empty.strokes = [] := rfl

/-- **Composition is melding.** The composition of two operations has the strokes of both, melded,
up to the order in which deletions and insertions side by side stand. -/
theorem spell_compose {a b c : Operation} (h : a.compose b = .ok c) :
    spell c.strokes = spell (meld a.strokes b.strokes) := by
  by_cases ha : a.isEmpty
  · rw [eq_empty_of_isEmpty ha] at h ⊢
    cases h
    rw [strokes_empty, meld_nil_left]
  by_cases hb : b.isEmpty
  · rw [eq_empty_of_isEmpty hb] at h ⊢
    rw [compose_empty_right] at h
    cases h
    rw [strokes_empty, meld_nil_right]
  have hmeld : c.components = spell (meld a.strokes b.strokes) := by
    rw [components_of_compose ha hb h, composedComponents_eq_spell, pieces, pieces,
      flatMap_strokes_pieces, flatMap_strokes_pieces, strokes, strokes]
  rw [strokes, hmeld, spell_strokesOf_spell]

/-- Operations whose strokes gather to the same components have the same normal form. -/
theorem normalize_eq_of_spell_eq {a b : Operation} (h : spell a.strokes = spell b.strokes) :
    a.normalize = b.normalize := by
  have htrim : trimComponents a.components = trimComponents b.components := by
    rw [trimComponents, trimComponents, gather_pieces_eq_spell, gather_pieces_eq_spell]
    exact congrArg (fun cs => gather (cs.flatMap Component.trimmed)) h
  apply ext
  unfold normalize
  simp only [htrim]

/-! ## Three operations -/

/-- **Composition is associative up to normal form.** Three operations whose lengths meet compose
whichever pair is taken first, and both ways have the same normal form. Nothing is asked of their
texts: what one inserts and the next deletes may differ, and a pair may cancel out to the empty
operation. -/
theorem compose_associative {a b c : Operation} (hab : a.lenAfter = b.lenBefore)
    (hbc : b.lenAfter = c.lenBefore) :
    ∃ ab bc early late, a.compose b = .ok ab ∧ b.compose c = .ok bc ∧
      ab.compose c = .ok early ∧ a.compose bc = .ok late ∧ early.normalize = late.normalize := by
  obtain ⟨ab, hcab, -, hafter⟩ := compose_lengths hab
  obtain ⟨bc, hcbc, hbefore, -⟩ := compose_lengths hbc
  obtain ⟨early, hearly, -, -⟩ := compose_lengths (hafter.trans hbc)
  obtain ⟨late, hlate, -, -⟩ := compose_lengths (hab.trans hbefore.symm)
  refine ⟨ab, bc, early, late, hcab, hcbc, hearly, hlate, normalize_eq_of_spell_eq ?_⟩
  calc spell early.strokes
      = spell (meld ab.strokes c.strokes) := spell_compose hearly
    _ = spell (meld (meld a.strokes b.strokes) c.strokes) :=
        spell_meld_congr_left (spell_compose hcab) _
    _ = spell (meld a.strokes (meld b.strokes c.strokes)) := by rw [meld_assoc]
    _ = spell (meld a.strokes bc.strokes) := (spell_meld_congr_right (spell_compose hcbc) _).symm
    _ = spell late.strokes := (spell_compose hlate).symm

/-- The first two cancel out, although the second deletes another text than the first inserts; then
three of which the last deletes what the first keeps, the second inserts and again the first
inserts. -/
theorem compose_associative_cancelled :
    let typed : Operation := ⟨[.replace [] ['x', 'y']], by decide, by decide⟩
    let cleared : Operation := ⟨[.replace ['z'] [], .retain 0, .replace ['w'] []],
      by decide, by decide⟩
    let again : Operation := ⟨[.replace [] ['k']], by decide, by decide⟩
    let around : Operation := ⟨[.replace [] ['x'], .retain 2, .replace ['b'] ['y', 'z']],
      by decide, by decide⟩
    let between : Operation := ⟨[.retain 2, .replace ['c'] ['u', 'v'], .retain 1,
      .replace [] ['p'], .retain 1], by decide, by decide⟩
    let across : Operation := ⟨[.retain 1, .replace ['m', 'n'] [], .replace ['o', 'q', 'r'] ['s'],
      .retain 1], by decide, by decide⟩
    (typed.compose cleared = .ok .empty ∧
      ∃ ab bc early late, typed.compose cleared = .ok ab ∧ cleared.compose again = .ok bc ∧
        ab.compose again = .ok early ∧ typed.compose bc = .ok late ∧
        early.normalize = late.normalize) ∧
    ∃ ab bc early late, around.compose between = .ok ab ∧ between.compose across = .ok bc ∧
      ab.compose across = .ok early ∧ around.compose bc = .ok late ∧
      early.normalize = late.normalize := by
  intro typed cleared again around between across
  exact ⟨⟨by cbv, compose_associative rfl rfl⟩, compose_associative rfl rfl⟩

end Operation

end Coedit
