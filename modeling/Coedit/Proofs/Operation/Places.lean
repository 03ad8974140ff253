import Mathlib.Data.List.Forall2
import Coedit.Proofs.Operation.Totality

/-!
# Transforming by place

What transforming does to an operation can be said in one sentence about its deletions and one about
its insertions:

> `Operation.transform_places`: after theirs, my operation deletes what comes from the characters
> that it deleted before, and it inserts the same characters as before, each at the gap that its old
> gap has become, or further on with nothing in between that it keeps.

`Operation.origin` goes back from a character of the new text to the old one, and `Operation.newGap`
goes forth from a gap of the old text to the new one. They fit together: a character that comes from
the old text stands in front of a gap if and only if it did before
(`Piece.lt_newGap_iff_of_origin`).

Up to the slip at the end, this is true of the aligned runs, and it is proved along the alignment
(`Placed`). The slip is the work of `gather` (`slid_gather`). An insertion in front of a deletion
becomes one replacement with it, and a replacement inserts behind what it deletes.
-/

namespace Coedit

namespace Piece

/-! ## Back to the old text and forth to the new one -/

/-- Where the character at an index of the new text stood in the old text, if it was there. -/
def origin : List Piece → (index : Nat) → Option Nat
  | [], k => some k
  | p :: ps, k =>
    if k < p.lenAfter then if p.isInsert then none else some k
    else (origin ps (k - p.lenAfter)).map (p.lenBefore + ·)

/-- The gap of the new text that a gap of the old text becomes. It is in front of all text that is
inserted there. -/
def newGap : List Piece → (gap : Nat) → Nat
  | [], g => g
  | insert i :: ps, g => if g = 0 then 0 else i.length + newGap ps g
  | retain n :: ps, g => if g < n then g else n + newGap ps (g - n)
  | delete d :: ps, g => if g < d.length then 0 else newGap ps (g - d.length)

theorem newGap_zero (ps : List Piece) : newGap ps 0 = 0 := by
  induction ps with
  | nil => rfl
  | cons p ps ih => cases p <;> simp_all [newGap]

/-- A character of the new text is in a kept run, or it comes from what the later runs make. -/
theorem origin_cons_eq_some {r : Piece} {ps : List Piece} {q p : Nat} :
    origin (r :: ps) q = some p ↔
      (q < r.lenAfter ∧ ¬ r.isInsert ∧ p = q) ∨
        ∃ q' p', q = r.lenAfter + q' ∧ p = r.lenBefore + p' ∧ origin ps q' = some p' := by
  rw [origin]
  by_cases hq : q < r.lenAfter
  · have hlater :
        ¬ ∃ q' p', q = r.lenAfter + q' ∧ p = r.lenBefore + p' ∧ origin ps q' = some p' := by
      rintro ⟨q', p', rfl, -⟩
      omega
    rw [if_pos hq, or_iff_left hlater]
    cases hr : r.isInsert <;> simp [hq, eq_comm]
  · rw [if_neg hq, Option.map_eq_some_iff]
    constructor
    · rintro ⟨p', hp', rfl⟩
      exact Or.inr ⟨q - r.lenAfter, p', by omega, rfl, hp'⟩
    · rintro (⟨hlt, -⟩ | ⟨q', p', rfl, rfl, hp'⟩)
      · exact absurd hlt hq
      · exact ⟨p', by rw [Nat.add_sub_cancel_left]; exact hp', rfl⟩

/-- A character that was there before stands in front of a gap if and only if it did before. -/
theorem lt_newGap_iff_of_origin {ps : List Piece} {q p : Nat} (h : origin ps q = some p) (g : Nat) :
    q < newGap ps g ↔ p < g := by
  induction ps generalizing q p g with
  | nil =>
    cases h
    rfl
  | cons r ps ih =>
    rcases origin_cons_eq_some.mp h with ⟨hq, hr, rfl⟩ | ⟨q', p', rfl, rfl, h'⟩
    · cases r with
      | insert i => exact absurd rfl hr
      | retain n => grind [newGap, lenAfter]
      | delete d => exact absurd hq (Nat.not_lt_zero _)
    · have hrest := ih h' (g - r.lenBefore)
      cases r <;> grind [newGap, lenAfter, lenBefore]

/-- A kept character is somewhere in the new text. -/
theorem exists_origin_eq {ps : List Piece} {p : Nat} (h : keepsAt ps p) :
    ∃ q, origin ps q = some p := by
  induction ps generalizing p with
  | nil => exact ⟨p, rfl⟩
  | cons r ps ih =>
    by_cases hp : p < r.lenBefore
    · refine ⟨p, origin_cons_eq_some.mpr (Or.inl ?_)⟩
      cases r <;> grind [keepsAt, lenBefore, lenAfter, isInsert]
    · obtain ⟨q, hq⟩ := @ih (p - r.lenBefore) (by
        cases r <;> grind [keepsAt, lenBefore])
      exact ⟨r.lenAfter + q, origin_cons_eq_some.mpr (Or.inr ⟨q, _, rfl, by omega, hq⟩)⟩

/-- A character that was not there before was inserted at a gap `k` of the old text: it stands in
front of what became of the later gaps, and of the characters behind that gap. -/
theorem exists_insertedAt_of_origin_eq_none {ps : List Piece} {q : Nat} (h : origin ps q = none) :
    ∃ k, insertedAt ps k ≠ [] ∧ (∀ g, q < newGap ps g ↔ k < g) ∧
      ∀ p q', origin ps q' = some p → (q < q' ↔ k ≤ p) := by
  induction ps generalizing q with
  | nil => cases h
  | cons r ps ih =>
    by_cases hq : q < r.lenAfter
    · -- only an insertion has characters of its own
      cases r with
      | insert i =>
        have hi : i ≠ [] := List.ne_nil_of_length_pos (Nat.lt_of_le_of_lt (Nat.zero_le _) hq)
        refine ⟨0, by simp [insertedAt, hi], ?_, ?_⟩
        · grind [newGap, lenAfter]
        · intro p q' hp
          rcases origin_cons_eq_some.mp hp with ⟨_, hr, _⟩ | ⟨q', p', rfl, rfl, _⟩
          · exact absurd rfl hr
          · omega
      | retain n =>
        rw [origin, if_pos hq] at h
        cases h
      | delete d => exact absurd hq (Nat.not_lt_zero _)
    · rw [origin, if_neg hq, Option.map_eq_none_iff] at h
      obtain ⟨k, hk, hgap, horder⟩ := ih h
      refine ⟨r.lenBefore + k, ?_, ?_, ?_⟩
      · cases r <;> simp [insertedAt, lenBefore, hk]
      · intro g
        have hg := hgap (g - r.lenBefore)
        cases r <;> grind [newGap, lenAfter, lenBefore]
      · intro p q' hp
        rcases origin_cons_eq_some.mp hp with ⟨hq', hr, rfl⟩ | ⟨q', p', rfl, rfl, hp'⟩
        · cases r <;> simp_all [lenAfter, lenBefore, isInsert]; omega
        · have := horder p' q' hp'
          omega

/-! ## What is inserted, with its gaps -/

/-- A character `n` places further on. -/
def shift (n : Nat) (x : Nat × Char) : Nat × Char := (n + x.1, x.2)

theorem shift_zero : shift 0 = id := by
  funext x
  simp [shift]

theorem shift_comp_mk (m n : Nat) : (shift m ∘ fun c => (n, c)) = fun c => (m + n, c) := rfl

theorem shift_comp_shift (m n : Nat) : shift m ∘ shift n = shift (m + n) := by
  funext x
  simp [shift, Nat.add_assoc]

/-- The characters that runs insert, in order, each with its gap of the old text. -/
def entered : List Piece → List (Nat × Char)
  | [] => []
  | p :: ps => p.inserted.map (0, ·) ++ (entered ps).map (shift p.lenBefore)

theorem entered_insert (i : Text) (ps : List Piece) :
    entered (insert i :: ps) = i.map (0, ·) ++ entered ps := by
  rw [entered, lenBefore, shift_zero, List.map_id]
  rfl

theorem entered_cons {p : Piece} (hp : ¬ p.isInsert) (ps : List Piece) :
    entered (p :: ps) = (entered ps).map (shift p.size) := by
  rw [entered, inserted_of_not_isInsert hp, lenBefore_eq_size hp]
  rfl

theorem mem_insertedAt_of_mem_entered {ps : List Piece} {x : Nat × Char} (hx : x ∈ entered ps) :
    x.2 ∈ insertedAt ps x.1 := by
  induction ps generalizing x with
  | nil => cases hx
  | cons p ps ih =>
    rcases List.mem_append.mp hx with hx | hx
    · obtain ⟨c, hc, rfl⟩ := List.mem_map.mp hx
      cases p with
      | insert i => exact List.mem_append_left _ hc
      | retain n => cases hc
      | delete d => cases hc
    · obtain ⟨y, hy, rfl⟩ := List.mem_map.mp hx
      have hrest := ih hy
      cases p <;> simp [insertedAt, shift, lenBefore, hrest]

/-! ## Cutting a run -/

theorem origin_cons {q : Piece} (hq : ¬ q.isInsert) (qs : List Piece) (j : Nat) :
    origin (q :: qs) j =
      if j < q.lenAfter then some j else (origin qs (j - q.lenAfter)).map (q.size + ·) := by
  rw [origin, if_neg hq, lenBefore_eq_size hq]

/-- What is inserted behind the first characters of a run is inserted by what is left of it. -/
theorem entered_resume {p : Piece} (hp : ¬ p.isInsert) (k : Nat) (ps : List Piece) :
    entered (p :: ps) = (entered (p.resume k ps)).map (shift (min k p.size)) := by
  unfold resume
  rw [entered_cons hp]
  split
  · next hk => rw [Nat.min_eq_right hk]
  · next hk =>
    rw [entered_cons (by rw [isInsert_drop]; exact hp), List.map_map, shift_comp_shift, size_drop,
      Nat.min_eq_left (by omega), Nat.add_sub_cancel' (by omega)]

theorem newGap_resume {q : Piece} (hq : ¬ q.isInsert) (k : Nat) (qs : List Piece) (g : Nat) :
    newGap (q :: qs) (min k q.size + g) = (q.take k).lenAfter + newGap (q.resume k qs) g := by
  cases q with
  | insert i => exact absurd rfl hq
  | retain n => grind [newGap, resume, take, drop, size, lenAfter]
  | delete d => grind [newGap, resume, take, drop, size, lenAfter]

theorem origin_resume {q : Piece} (hq : ¬ q.isInsert) (k : Nat) (qs : List Piece) (j : Nat) :
    origin (q :: qs) j =
      if j < (q.take k).lenAfter then some j
      else (origin (q.resume k qs) (j - (q.take k).lenAfter)).map (min k q.size + ·) := by
  have hcut := lenAfter_take_add_drop k q
  rw [origin_cons hq, resume]
  by_cases hk : q.size ≤ k
  · have hrest : (q.drop k).lenAfter = 0 := lenAfter_of_size_eq_zero (by rw [size_drop]; omega)
    rw [if_pos hk, show (q.take k).lenAfter = q.lenAfter by omega, Nat.min_eq_right hk]
  · have hdrop : ¬ (q.drop k).isInsert := by rw [isInsert_drop]; exact hq
    rw [if_neg hk, origin_cons hdrop, Nat.min_eq_left (by omega), size_drop]
    by_cases hj : j < (q.take k).lenAfter
    · rw [if_pos hj, if_pos (by omega)]
    · rw [if_neg hj]
      by_cases hj' : j < q.lenAfter
      · -- a run with characters in the new text is kept, so the cut is at the same place in both
        have hkept : (q.take k).lenAfter = k := by
          cases q with
          | insert i => exact absurd rfl hq
          | retain n => exact Nat.min_eq_left (Nat.le_of_not_le hk)
          | delete d => exact absurd hj' (Nat.not_lt_zero _)
        rw [if_pos hj', if_pos (by omega), Option.map_some]
        congr 1
        omega
      · rw [if_neg hj', if_neg (by omega), Option.map_map, Nat.sub_sub, hcut]
        congr 1
        funext p
        simp
        omega

/-- Nothing is inserted in front of a first run of another kind. -/
theorem pos_of_mem_entered {ps : List Piece} (hsize : ∀ p ∈ ps, p.size ≠ 0)
    (hfirst : ∀ p ∈ ps.head?, ¬ p.isInsert) {x : Nat × Char} (hx : x ∈ entered ps) : 0 < x.1 := by
  cases ps with
  | nil => cases hx
  | cons p ps =>
    rw [entered_cons (hfirst p rfl)] at hx
    obtain ⟨y, -, rfl⟩ := List.mem_map.mp hx
    exact Nat.add_pos_left (Nat.pos_of_ne_zero (hsize p (List.mem_cons_self ..))) _

end Piece

/-! ## Following the alignment -/

/-- A run of mine and a run of theirs over the same stretch contribute a run over what theirs leaves
of it, which is kept or deleted as mine says. -/
theorem places_transformed_both {p q : Piece} (hp : ¬ p.isInsert) (hq : ¬ q.isInsert)
    (hsize : p.size = q.size) (runs : List Piece) :
    (∀ k, Piece.keepsAt ((Cell.both p q).transformed ++ runs) k =
      if k < q.lenAfter then !p.isDelete else Piece.keepsAt runs (k - q.lenAfter)) ∧
    Piece.entered ((Cell.both p q).transformed ++ runs) =
      (Piece.entered runs).map (Piece.shift q.lenAfter) := by
  cases q with
  | insert j => exact absurd rfl hq
  | delete e =>
    have hnone : (Cell.both p (.delete e)).transformed = [] := by cases p <;> rfl
    rw [hnone, List.nil_append, Piece.lenAfter, Piece.shift_zero, List.map_id]
    exact ⟨fun k => rfl, rfl⟩
  | retain m =>
    have hlone : (Cell.both p (.retain m)).transformed = [p] := by
      cases p with
      | insert i => exact absurd rfl hp
      | retain n => rfl
      | delete d => rfl
    rw [hlone, List.singleton_append, Piece.entered_cons hp, hsize]
    refine ⟨fun k => ?_, rfl⟩
    rw [Piece.keepsAt_cons hp, hsize]
    rfl

/-- The runs delete what comes from a character that mine delete, and insert what mine insert, at
the gaps that the gaps have become by theirs. -/
structure Placed (runs mine theirs : List Piece) : Prop where
  keepsAt_eq : ∀ k, Piece.keepsAt runs k = (Piece.origin theirs k).all (Piece.keepsAt mine)
  entered_eq : Piece.entered runs =
    (Piece.entered mine).map (Prod.map (Piece.newGap theirs) id)

section Placed

variable {runs mine theirs : List Piece}

theorem Placed.insert_mine (h : Placed runs mine theirs) (i : Text) :
    Placed (.insert i :: runs) (.insert i :: mine) theirs where
  keepsAt_eq := h.keepsAt_eq
  entered_eq := by
    rw [Piece.entered_insert, Piece.entered_insert, h.entered_eq, List.map_append, List.map_map]
    congr 2
    funext c
    simp [Piece.newGap_zero]

/-- My text comes first, so theirs goes in front of it only if it is inserted at a later gap. -/
theorem Placed.insert_theirs (h : Placed runs mine theirs)
    (hmine : ∀ x ∈ Piece.entered mine, 0 < x.1) (j : Text) :
    Placed (.retain j.length :: runs) mine (.insert j :: theirs) where
  keepsAt_eq := by
    intro k
    rw [Piece.keepsAt, Piece.origin]
    by_cases hk : k < j.length
    · rw [if_pos hk, if_pos (show k < (Piece.insert j).lenAfter from hk)]
      rfl
    · rw [if_neg hk, if_neg (show ¬ k < (Piece.insert j).lenAfter from hk), h.keepsAt_eq]
      simp [Piece.lenAfter, Piece.lenBefore]
  entered_eq := by
    rw [Piece.entered_cons (p := .retain _) Bool.false_ne_true, h.entered_eq, List.map_map]
    refine List.map_congr_left fun x hx => Prod.ext ?_ rfl
    show j.length + Piece.newGap theirs x.1 = Piece.newGap (.insert j :: theirs) x.1
    rw [Piece.newGap, if_neg (Nat.ne_of_gt (hmine x hx))]

theorem Placed.both {p q : Piece} (hp : ¬ p.isInsert) (hq : ¬ q.isInsert)
    (h : Placed runs (p.resume q.size mine) (q.resume p.size theirs)) :
    Placed ((Cell.both (p.take q.size) (q.take p.size)).transformed ++ runs) (p :: mine)
      (q :: theirs) := by
  have hpt : ¬ (p.take q.size).isInsert := by rw [Piece.isInsert_take]; exact hp
  have hqt : ¬ (q.take p.size).isInsert := by rw [Piece.isInsert_take]; exact hq
  obtain ⟨hkeeps, hentered⟩ := places_transformed_both hpt hqt
    (by rw [Piece.size_take, Piece.size_take, Nat.min_comm]) runs
  constructor
  · intro k
    rw [hkeeps, Piece.origin_resume hq p.size]
    split
    · next hk =>
      have hle : (q.take p.size).lenAfter ≤ p.size := by
        cases q <;> grind [Piece.take, Piece.lenAfter]
      show _ = Piece.keepsAt (p :: mine) k
      rw [Piece.keepsAt_cons hp, if_pos (by omega), Piece.isDelete_take]
    · rw [Option.all_map, h.keepsAt_eq]
      congr 1
      funext k
      rw [← Piece.keepsAt_resume hp, Nat.min_comm, Nat.add_comm]
  · rw [hentered, Piece.entered_resume hp q.size, h.entered_eq, List.map_map, List.map_map]
    congr 1
    funext x
    simp [Piece.shift, Nat.min_comm q.size, Piece.newGap_resume hq]

end Placed

/-- **The aligned runs do by place what mine do.** -/
theorem placed_concurrence {ps qs : List Piece} (hps : ∀ p ∈ ps, p.size ≠ 0)
    (hqs : ∀ q ∈ qs, q.size ≠ 0) (h : total Piece.lenBefore ps = total Piece.lenBefore qs) :
    Placed ((Operation.concurrence .left ps qs).flatMap Cell.transformed) ps qs :=
  concurrence_induction ⟨fun _ => rfl, rfl⟩ (fun i hrest => hrest.insert_mine i)
    (fun j hsize hfirst hrest =>
      hrest.insert_theirs (fun _ hx => Piece.pos_of_mem_entered hsize (hfirst rfl) hx) j)
    (fun hp hq hrest => hrest.both hp hq) hps hqs h

/-! ## What gathering does to the places -/

/-- The same character, moved on by nothing but characters that are not kept. -/
structure Slid (kept : Nat → Bool) (x y : Nat × Char) : Prop where
  same : x.2 = y.2
  le : x.1 ≤ y.1
  lt_of_kept : ∀ k, kept k → k < y.1 → k < x.1

theorem Slid.refl (kept : Nat → Bool) (x : Nat × Char) : Slid kept x x :=
  ⟨rfl, Nat.le_refl _, fun _ _ h => h⟩

theorem Slid.trans {kept : Nat → Bool} {x y z : Nat × Char} (h : Slid kept x y)
    (h' : Slid kept y z) : Slid kept x z where
  same := h.same.trans h'.same
  le := Nat.le_trans h.le h'.le
  lt_of_kept := fun k hk hlt => h.lt_of_kept k hk (h'.lt_of_kept k hk hlt)

theorem Slid.lt_iff {kept : Nat → Bool} {x y : Nat × Char} (h : Slid kept x y) {k : Nat}
    (hk : kept k) : k < y.1 ↔ k < x.1 :=
  ⟨h.lt_of_kept k hk, fun hlt => Nat.lt_of_lt_of_le hlt h.le⟩

theorem forall₂_slid_trans {kept : Nat → Bool} {xs ys zs : List (Nat × Char)}
    (h : List.Forall₂ (Slid kept) xs ys) (h' : List.Forall₂ (Slid kept) ys zs) :
    List.Forall₂ (Slid kept) xs zs := by
  induction h generalizing zs with
  | nil => exact h'
  | cons hxy _ ih =>
    obtain ⟨z, zs, hyz, hrest, rfl⟩ := List.forall₂_cons_left_iff.mp h'
    exact .cons (hxy.trans hyz) (ih hrest)

namespace Piece

theorem entered_cons_empty {p : Piece} (hp : p.size = 0) (ps : List Piece) :
    entered (p :: ps) = entered ps := by
  by_cases hpi : p.isInsert
  · cases p with
    | insert i =>
      rw [entered_insert, List.length_eq_zero_iff.mp hp]
      rfl
    | retain n => cases hpi
    | delete d => cases hpi
  · rw [entered_cons hpi, hp, shift_zero, List.map_id]

theorem entered_filter_append (ps qs : List Piece) :
    entered ((ps.filter fun p => p.size != 0) ++ qs) = entered (ps ++ qs) :=
  read_filter_append (fun _ ps hp => entered_cons_empty hp ps)
    (fun p ps qs h => by rw [entered, entered, h]) ps qs

theorem entered_pieces_retain (n : Nat) (cs : List Component) :
    entered (pieces (.retain n :: cs)) = (entered (pieces cs)).map (shift n) :=
  (entered_filter_append [retain n] (pieces cs)).trans
    (entered_cons (p := retain n) Bool.false_ne_true _)

theorem entered_pieces_replace (d i : Text) (cs : List Component) :
    entered (pieces (.replace d i :: cs)) =
      i.map (d.length, ·) ++ (entered (pieces cs)).map (shift d.length) := by
  refine (entered_filter_append [delete d, insert i] (pieces cs)).trans ?_
  show entered (delete d :: insert i :: pieces cs) = _
  rw [entered_cons (p := delete d) Bool.false_ne_true, entered_insert, List.map_append,
    List.map_map]
  rfl

theorem keepsAt_pieces_onto (p : Piece) (cs : List Component) :
    keepsAt (pieces (p.onto cs)) = keepsAt (p :: pieces cs) := by
  by_cases hp : p.size = 0
  · rw [onto_of_size_eq_zero hp, keepsAt_cons_empty hp]
  · funext k
    rw [keepsAt_pieces]
    cases cs with
    | nil => cases p <;> simp_all [onto, Coedit.keepsAt, keepsAt, pieces, size]
    | cons c cs =>
      cases p <;> cases c <;>
        simp only [onto, if_neg hp, Coedit.keepsAt, keepsAt, keepsAt_pieces] <;> grind

/-- Only an insertion in front of a replacement is moved: it goes behind what is deleted there. -/
theorem slid_onto (p : Piece) (cs : List Component) :
    List.Forall₂ (Slid (keepsAt (p :: pieces cs))) (entered (p :: pieces cs))
      (entered (pieces (p.onto cs))) := by
  by_cases hp : p.size = 0
  · rw [onto_of_size_eq_zero hp, entered_cons_empty hp]
    exact List.forall₂_same.mpr fun x _ => .refl _ x
  by_cases hmove : ∃ i d i' rest, p = insert i ∧ cs = .replace d i' :: rest
  · obtain ⟨i, d, i', rest, rfl, rfl⟩ := hmove
    rw [onto, if_neg hp, entered_insert, entered_pieces_replace, entered_pieces_replace,
      List.map_append, List.append_assoc]
    refine List.rel_append ?_ (List.forall₂_same.mpr fun x _ => .refl _ x)
    rw [List.forall₂_map_left_iff, List.forall₂_map_right_iff]
    refine List.forall₂_same.mpr fun c _ => ⟨rfl, Nat.zero_le _, fun k hk hlt => ?_⟩
    rw [keepsAt, keepsAt_pieces, Coedit.keepsAt, if_pos hlt] at hk
    cases hk
  · have hsame : entered (pieces (p.onto cs)) = entered (p :: pieces cs) := by
      cases cs with
      | nil =>
        cases p <;> simp [onto, hp, entered_pieces_retain, entered_pieces_replace, entered,
          inserted, lenBefore, show pieces [] = [] from rfl]
      | cons c cs =>
        cases p <;> cases c <;> simp_all [onto, entered_pieces_retain, entered_pieces_replace,
          entered, inserted, lenBefore, shift_comp_shift, shift_zero, shift_comp_mk]
    rw [hsame]
    exact List.forall₂_same.mpr fun x _ => .refl _ x

/-- What is inserted behind a run slides as it does without the run. -/
theorem slid_cons (p : Piece) {ps qs : List Piece}
    (h : List.Forall₂ (Slid (keepsAt ps)) (entered ps) (entered qs)) :
    List.Forall₂ (Slid (keepsAt (p :: ps))) (entered (p :: ps)) (entered (p :: qs)) := by
  rw [entered, entered]
  refine List.rel_append (List.forall₂_same.mpr fun x _ => .refl _ x) ?_
  rw [List.forall₂_map_left_iff, List.forall₂_map_right_iff]
  refine h.imp fun x y hxy => ⟨hxy.same, Nat.add_le_add_left hxy.le _, fun k hk hlt => ?_⟩
  by_cases hkp : k < p.lenBefore
  · exact Nat.lt_add_right _ hkp
  · have hrest : keepsAt ps (k - p.lenBefore) := by
      cases p <;> grind [keepsAt, lenBefore]
    have := hxy.lt_of_kept _ hrest (by have : k < p.lenBefore + y.1 := hlt; omega)
    show k < p.lenBefore + x.1
    omega

end Piece

/-- **Gathering moves insertions only over what is deleted.** -/
theorem slid_gather (ps : List Piece) :
    Piece.keepsAt (pieces (gather ps)) = Piece.keepsAt ps ∧
      List.Forall₂ (Slid (Piece.keepsAt ps)) (Piece.entered ps)
        (Piece.entered (pieces (gather ps))) := by
  induction ps with
  | nil => exact ⟨rfl, .nil⟩
  | cons p ps ih =>
    obtain ⟨hkeeps, hslid⟩ := ih
    have hfront : Piece.keepsAt (p :: pieces (gather ps)) = Piece.keepsAt (p :: ps) := by
      funext k
      cases p <;> simp only [Piece.keepsAt, hkeeps]
    constructor
    · rw [gather_cons, Piece.keepsAt_pieces_onto, hfront]
    · have hcons := Piece.slid_cons p hslid
      have honto := Piece.slid_onto p (gather ps)
      rw [hfront] at honto
      exact forall₂_slid_trans hcons honto

/-! ## Operations -/

namespace Operation

/-- Where the character at an index of the new text stood in the old text, if it was there. -/
def origin (op : Operation) : (index : Nat) → Option Nat := Piece.origin op.pieces

/-- The gap of the new text that a gap of the old text becomes, in front of all text that is
inserted there. -/
def newGap (op : Operation) : (gap : Nat) → Nat := Piece.newGap op.pieces

/-- The characters that the operation inserts, in order, each with its gap of the old text. -/
def entered (op : Operation) : List (Nat × Char) := Piece.entered op.pieces

theorem placed_runs {mine theirs : Operation} (h : mine.lenBefore = theirs.lenBefore) :
    Placed ((concurrence .left mine.pieces theirs.pieces).flatMap Cell.transformed) mine.pieces
      theirs.pieces :=
  placed_concurrence size_ne_zero_of_mem_pieces size_ne_zero_of_mem_pieces
    (by rw [total_lenBefore_runs, total_lenBefore_runs, h])

/-- **Transforming by place.** After theirs, my operation deletes what comes from a character that
it deleted, and inserts the same characters. The gap of each is what its gap became, or a later one
with nothing in between that is kept, but not if theirs is empty. -/
theorem transform_places {mine theirs op : Operation} (h : mine.transform theirs .left = .ok op) :
    (∀ k, keepsAt op.components k = (theirs.origin k).all (keepsAt mine.components)) ∧
      List.Forall₂ (fun x y => Slid (keepsAt op.components) (theirs.newGap x.1, x.2) y ∧
        (theirs.isEmpty → y.1 = theirs.newGap x.1)) mine.entered op.entered := by
  unfold transform at h
  split at h
  · next hempty =>
    cases h
    rcases hempty with hmine | htheirs
    · have hnil : mine.components = [] := List.isEmpty_iff.mp hmine
      rw [entered, pieces, hnil]
      refine ⟨fun k => ?_, .nil⟩
      cases theirs.origin k <;> rfl
    · have hnil : theirs.components = [] := List.isEmpty_iff.mp htheirs
      unfold origin newGap
      rw [pieces, hnil]
      exact ⟨fun k => rfl, List.forall₂_same.mpr fun x _ => ⟨.refl _ x, fun _ => rfl⟩⟩
  · next hsome =>
    split at h
    · next hlen =>
      have hplaced := placed_runs hlen
      obtain ⟨hgather, hslid⟩ := slid_gather
        ((concurrence .left mine.pieces theirs.pieces).flatMap Cell.transformed)
      rw [← components_of_ofComponents h, keepsAt_pieces] at hgather
      rw [← components_of_ofComponents h, ← hgather, hplaced.entered_eq,
        List.forall₂_map_left_iff] at hslid
      refine ⟨fun k => ?_, hslid.imp fun x y hxy => ⟨hxy, fun hnone => absurd (Or.inr hnone) hsome⟩⟩
      rw [hgather, hplaced.keepsAt_eq, keepsAt_runs]
      rfl
    · cases h

end Operation

end Coedit
